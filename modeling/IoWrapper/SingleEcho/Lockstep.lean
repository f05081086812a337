import IoWrapper.SingleEcho.Agreement

/-! The loop on one ring follows a loop of the server with several: on the same completions
it makes the same calls with the same addresses, as long as no receive fails with `EBADF`. -/
namespace IoWrapper.SingleEcho.Lockstep
open Core.Machine Core.Traffic Core.Registry GoEcho.Operations
open MultiEcho.Registry Agreement
open MultiEcho.Server (Loop Acts Shared Action)

/-- The rings are the same, and what is to be read through a pointer is in the map. -/
structure Beside (l : Loop) (s : Server.State) : Prop where
  ring : s.ring = l.ring
  handled : s.handled = l.handled
  reused : s.reused = false
  keys : ∀ sqe ∈ l.ring.seen.pending, sqe.userData ∈ l.mapEvent

section Calls

variable {l l' : Loop} {s : Server.State} {request : Request} {userData : Nat}

theorem Beside.produced (h : Beside l s) (prepared : Prepared) (hnew : userData ∉ l.mapEvent) :
    Beside (l.produced prepared userData) (s.produced prepared userData) := by
  constructor
  case ring => simp only [Loop.produced, Server.State.produced, h.ring]
  case handled => exact h.handled
  case reused =>
    simp only [Server.State.produced, h.reused, Bool.false_or, decide_eq_false_iff_not, h.ring]
    intro hmem
    rcases List.mem_map.mp hmem with ⟨sqe, hsqe, rfl⟩
    exact hnew (h.keys sqe hsqe)
  case keys =>
    intro sqe hsqe
    have hmem := (IoRing.pending_push l.ring.seen ⟨prepared.op, userData⟩).mem_iff.mp hsqe
    rw [Loop.produced, AList.mem_insert]
    rcases List.mem_cons.mp hmem with rfl | hmem
    · exact Or.inl rfl
    · exact Or.inr (h.keys sqe hmem)

theorem Beside.produce (h : Beside l s) (hproduce : l.produce 1 request userData = .ok l') :
    ∃ s', s.produce request userData = .ok s' ∧ Beside l' s' ∧ s'.lfd = s.lfd ∧
      s'.panic = s.panic := by
  cases hprepared : request.prepare 1 with
  | error panic =>
    simp only [Loop.produce, hprepared] at hproduce
    cases hproduce
  | ok prepared =>
    simp only [Loop.produce, hprepared] at hproduce
    simp only [Server.State.produce, h.ring, hprepared]
    by_cases hroom : l.ring.sq.length < entries
    · by_cases hnew : userData ∈ l.mapEvent
      · rw [if_pos hroom, if_pos hnew] at hproduce
        cases hproduce
      · rw [if_pos hroom, if_neg hnew] at hproduce
        cases hproduce
        exact ⟨_, if_pos hroom, h.produced prepared hnew, rfl, rfl⟩
    · rw [if_neg hroom] at hproduce
      cases hproduce

theorem Beside.produce_panic {panic : Panic} (h : Beside l s)
    (hproduce : l.produce 1 request userData = .error (.panic panic)) :
    s.produce request userData = .error (.panic panic) := by
  cases hprepared : request.prepare 1 with
  | error own =>
    simp only [Loop.produce, hprepared] at hproduce
    simp only [Server.State.produce, hprepared]
    exact congrArg Except.error (Except.error.inj hproduce)
  | ok prepared =>
    simp only [Loop.produce, hprepared] at hproduce
    simp only [Server.State.produce, h.ring, hprepared]
    by_cases hroom : l.ring.sq.length < entries
    · by_cases hnew : userData ∈ l.mapEvent
      · rw [if_pos hroom, if_pos hnew] at hproduce
        cases hproduce
      · rw [if_pos hroom, if_neg hnew] at hproduce
        cases hproduce
    · rw [if_neg hroom] at hproduce
      rw [if_neg hroom]
      exact congrArg Except.error (Except.error.inj hproduce)

theorem Beside.produceAll {requests : List Request} {addresses : List Nat} (h : Beside l s)
    (hproduce : l.produceAll 1 requests addresses = .ok l') :
    ∃ s', produceEach Server.State.produce s requests addresses = .ok s' ∧ Beside l' s' ∧
      s'.lfd = s.lfd ∧ s'.panic = s.panic := by
  induction requests generalizing l s addresses with
  | nil =>
    cases hproduce
    exact ⟨s, rfl, h, rfl, rfl⟩
  | cons request requests ih =>
    cases addresses with
    | nil => cases hproduce
    | cons userData addresses =>
      rcases bind_eq_ok.mp hproduce with ⟨middle, hmiddle, hrest⟩
      rcases h.produce hmiddle with ⟨s', hs', hbeside, hlfd, hpanic⟩
      rcases ih hbeside hrest with ⟨t, ht, hbeside', hlfd', hpanic'⟩
      exact ⟨t, bind_eq_ok.mpr ⟨s', hs', ht⟩, hbeside', hlfd'.trans hlfd, hpanic'.trans hpanic⟩

theorem Beside.produceAll_panic {requests : List Request} {addresses : List Nat} {panic : Panic}
    (h : Beside l s) (hproduce : l.produceAll 1 requests addresses = .error (.panic panic)) :
    produceEach Server.State.produce s requests addresses = .error (.panic panic) := by
  induction requests generalizing l s addresses with
  | nil => cases hproduce
  | cons request requests ih =>
    cases addresses with
    | nil => cases hproduce
    | cons userData addresses =>
      rcases bind_eq_error.mp hproduce with hfirst | ⟨middle, hmiddle, hrest⟩
      · exact bind_eq_error.mpr (Or.inl (h.produce_panic hfirst))
      · rcases h.produce hmiddle with ⟨s', hs', hbeside, -⟩
        exact bind_eq_error.mpr (Or.inr ⟨s', hs', ih hbeside hrest⟩)

end Calls

/-- No receive has failed with `EBADF`. -/
def Clean (handled : List Cqe) : Prop := ∀ cfd, (.recv cfd, -ebadf) ∉ history handled

def pcOf : MultiEcho.Server.Pc → Server.Pc
  | .created => .created
  | .head => .head
  | .waiting => .waiting
  | .returned | .empty => .returned

structure Matches (sh : Shared) (l : Loop) (s : Server.State) : Prop where
  ring : s.ring = l.ring
  handled : s.handled = l.handled
  reused : s.reused = false
  lfd : s.lfd = sh.lfd
  panic : s.panic = sh.panic
  pc : s.pc = pcOf l.pc
  buffs : sh.panic = none → sh.buffs = if l.pc = .created then 0 else 1

section Steps

variable {lfd : Nat} {sh sh' : Shared} {l l' : Loop} {s : Server.State} {action : Action}

theorem Matches.beside (h : Matches sh l s) (hregistered : Registered l l.ring.pending) :
    Beside l s :=
  ⟨h.ring, h.handled, h.reused, fun _ hsqe => (hregistered.mem_iff _).mpr
    (List.mem_map_of_mem (IoRing.mem_pending_of_seen hsqe))⟩

theorem Matches.beside_delete {cqe : Cqe} {rest : List Cqe} (h : Matches sh l s)
    (hregistered : Registered l l.ring.pending) (hcq : l.ring.cq = cqe :: rest) :
    Beside (l.delete cqe.entry.userData) s :=
  ⟨h.ring, h.handled, h.reused, fun _ hsqe =>
    ((hregistered.perm (IoRing.pending_seen hcq).symm).erase.mem_iff _).mpr
      (List.mem_map_of_mem hsqe)⟩

theorem Matches.react {cqe : Cqe} {rest : List Cqe} {eventInfo : EventInfo}
    {requests : List Request} (h : Matches sh l s) (hregistered : Registered l l.ring.pending)
    (hintact : Intact lfd s) (hcq : l.ring.cq = cqe :: rest)
    (hlookup : l.mapEvent.lookup cqe.entry.userData = some eventInfo)
    (hreact : MultiEcho.Server.react sh.lfd eventInfo cqe.res = .ok requests)
    (hclean : ∀ cfd, (cqe.entry.op.request, cqe.res) ≠ (.recv cfd, -ebadf)) :
    Server.react s.lfd (s.heap cqe.entry.userData) cqe.res = .ok requests := by
  rw [react_head hregistered hcq hlookup] at hreact
  have hmem : cqe.entry ∈ s.ring.pending := by
    rw [h.ring]
    exact IoRing.mem_pending_of_cq (by rw [hcq]; exact List.mem_cons_self ..)
  rw [hintact.pointing _ hmem, Agreement.react_info, h.lfd,
    ← (multiAnswer_eq_iff sh.lfd _).mpr hclean]
  exact hreact

theorem process_ok {cqe : Cqe} {requests : List Request} {addresses : List Nat}
    {next : Server.State}
    (hreact : Server.react s.lfd (s.heap cqe.entry.userData) cqe.res = .ok requests)
    (hproduce : produceEach Server.State.produce s requests addresses = .ok next) :
    s.process cqe addresses =
      .ok { next with ring := next.ring.seen, pc := .head, handled := next.handled ++ [cqe] } := by
  unfold Server.State.process
  rw [hreact]
  exact bind_eq_ok.mpr ⟨next, hproduce, rfl⟩

theorem process_panic {cqe : Cqe} {requests : List Request} {addresses : List Nat} {panic : Panic}
    (hreact : Server.react s.lfd (s.heap cqe.entry.userData) cqe.res = .ok requests)
    (hproduce : produceEach Server.State.produce s requests addresses = .error (.panic panic)) :
    s.process cqe addresses = .error (.panic panic) := by
  unfold Server.State.process
  rw [hreact]
  exact bind_eq_error.mpr (Or.inl hproduce)

theorem act_handle {cqe : Cqe} {rest : List Cqe} (hpc : s.pc = .waiting)
    (hcq : s.ring.cq = cqe :: rest) (addresses : List Nat) :
    Server.act s (.handle addresses) = s.settle (s.process cqe addresses) := by
  simp only [Server.act, hpc, hcq]

theorem clean_of_panic {cqe : Cqe} {rest : List Cqe} {eventInfo : EventInfo}
    {requests : List Request} {addresses : List Nat} {panic : Panic} {buffs : Nat}
    (hregistered : Registered l l.ring.pending) (hcq : l.ring.cq = cqe :: rest)
    (hlookup : l.mapEvent.lookup cqe.entry.userData = some eventInfo)
    (hreact : MultiEcho.Server.react lfd eventInfo cqe.res = .ok requests)
    (hproduce : (l.delete cqe.entry.userData).produceAll buffs requests addresses =
      .error (.panic panic)) (cfd : Nat) :
    (cqe.entry.op.request, cqe.res) ≠ (.recv cfd, -ebadf) := by
  intro heq
  rw [Prod.mk.injEq] at heq
  rw [react_head hregistered hcq hlookup, heq.1, heq.2] at hreact
  have hnone : requests = [] := (Except.ok.inj hreact).symm
  rw [hnone] at hproduce
  cases hproduce

theorem Matches.panicked {panic : Panic} (h : Matches sh l s) (hlfd : sh'.lfd = sh.lfd)
    (hpanic : sh'.panic = some panic) : Matches sh' l { s with panic := some panic } :=
  ⟨h.ring, h.handled, h.reused, h.lfd.trans hlfd.symm, hpanic.symm, h.pc,
    fun hnone => by cases hpanic.symm.trans hnone⟩

theorem Matches.start {next : Loop} {userData : Nat} (h : Matches sh l s)
    (hregistered : Registered l l.ring.pending) (hcreated : l.pc = .created)
    (hproduce : l.produce 1 (.accept sh.lfd) userData = .ok next) :
    ∃ s', Server.act s (.start userData) = some s' ∧
      Matches { sh with buffs := 1 } { next with pc := .head } s' := by
  have hpc : s.pc = .created := by rw [h.pc, hcreated, pcOf]
  rw [← h.lfd] at hproduce
  rcases (h.beside hregistered).produce hproduce with ⟨s', hs', hbeside, hlfd, hpanic⟩
  refine ⟨{ s' with pc := .head }, (if_pos hpc).trans ?_, ?_⟩
  · rw [hs']
    rfl
  · exact ⟨hbeside.ring, hbeside.handled, hbeside.reused, hlfd.trans h.lfd,
      hpanic.trans h.panic, rfl, fun _ => rfl⟩

theorem Matches.start_panic {userData : Nat} {panic : Panic} (h : Matches sh l s)
    (hregistered : Registered l l.ring.pending) (hcreated : l.pc = .created)
    (hproduce : l.produce 1 (.accept sh.lfd) userData = .error (.panic panic)) :
    Server.act s (.start userData) = some { s with panic := some panic } := by
  have hpc : s.pc = .created := by rw [h.pc, hcreated, pcOf]
  rw [← h.lfd] at hproduce
  refine (if_pos hpc).trans ?_
  rw [(h.beside hregistered).produce_panic hproduce]
  rfl

section Completions

variable {cqe : Cqe} {rest : List Cqe} {eventInfo : EventInfo} {requests : List Request}
  {addresses : List Nat} {next : Loop}

theorem Matches.handle (h : Matches sh l s) (hregistered : Registered l l.ring.pending)
    (hwaiting : l.pc = .waiting) (hbuffs : sh.buffs = 1) (hcq : l.ring.cq = cqe :: rest)
    (hreact : Server.react s.lfd (s.heap cqe.entry.userData) cqe.res = .ok requests)
    (hproduce : (l.delete cqe.entry.userData).produceAll 1 requests addresses = .ok next) :
    ∃ s', Server.act s (.handle addresses) = some s' ∧ Matches sh
      { next with ring := next.ring.seen, pc := .head, handled := next.handled ++ [cqe] } s' := by
  have hpc : s.pc = .waiting := by rw [h.pc, hwaiting, pcOf]
  rcases (h.beside_delete hregistered hcq).produceAll hproduce with
    ⟨s', hs', hbeside, hlfd, hpanic⟩
  refine ⟨{ s' with ring := s'.ring.seen, pc := .head, handled := s'.handled ++ [cqe] }, ?_, ?_⟩
  · rw [act_handle hpc (h.ring ▸ hcq), process_ok hreact hs']
    rfl
  · exact ⟨congrArg IoRing.seen hbeside.ring, congrArg (· ++ [cqe]) hbeside.handled,
      hbeside.reused, hlfd.trans h.lfd, hpanic.trans h.panic, rfl, fun _ => hbuffs⟩

theorem Matches.handle_panic {panic : Panic} (h : Matches sh l s)
    (hregistered : Registered l l.ring.pending) (hwaiting : l.pc = .waiting)
    (hcq : l.ring.cq = cqe :: rest)
    (hreact : Server.react s.lfd (s.heap cqe.entry.userData) cqe.res = .ok requests)
    (hproduce : (l.delete cqe.entry.userData).produceAll 1 requests addresses =
      .error (.panic panic)) :
    Server.act s (.handle addresses) = some { s with panic := some panic } := by
  have hpc : s.pc = .waiting := by rw [h.pc, hwaiting, pcOf]
  have hs' := (h.beside_delete hregistered hcq).produceAll_panic hproduce
  rw [act_handle hpc (h.ring ▸ hcq), process_panic hreact hs']
  rfl

end Completions

theorem Matches.act (h : Matches sh l s) (hregistered : Registered l l.ring.pending)
    (hintact : Intact lfd s) (hpanic : sh.panic = none) (hclean : Clean l'.handled)
    (hact : Acts 0 sh l action sh' l') :
    ∃ event s', Server.act s event = some s' ∧ Matches sh' l' s' := by
  have hpc := h.pc
  have hbuffs := h.buffs hpanic
  cases hact with
  | @started userData next hcreated hproduce =>
    rw [if_pos hcreated] at hbuffs
    rw [hbuffs] at hproduce
    rw [hbuffs]
    exact ⟨.start userData, h.start hregistered hcreated hproduce⟩
  | @startPanicked userData panic hcreated hproduce =>
    rw [hbuffs, if_pos hcreated] at hproduce
    exact ⟨.start userData, _, h.start_panic hregistered hcreated hproduce, h.panicked rfl rfl⟩
  | @submitted count hhead =>
    rw [hhead] at hpc hbuffs
    exact ⟨.submit count, _, if_pos hpc, congrArg (IoRing.submit · count) h.ring, h.handled,
      h.reused, h.lfd, h.panic, rfl, fun _ => hbuffs⟩
  | @submitFailed count hhead =>
    rw [hhead] at hpc hbuffs
    exact ⟨.submitError count, _, if_pos hpc, congrArg (IoRing.submit · count) h.ring, h.handled,
      h.reused, h.lfd, h.panic, rfl, fun _ => hbuffs⟩
  | waitFailed hwaiting =>
    rw [hwaiting] at hpc hbuffs
    exact ⟨.waitError, _, if_pos hpc, h.ring, h.handled, h.reused, h.lfd, h.panic, rfl,
      fun _ => hbuffs⟩
  -- A pending operation is in the map, with an event of one of the four types.
  | unknown hwaiting hcq hlookup =>
    rw [lookup_head hregistered hcq] at hlookup
    cases hlookup
  | unsupported hwaiting hcq hlookup hreact =>
    cases (react_head hregistered hcq hlookup).symm.trans hreact
  | @panicked addresses cqe rest eventInfo requests panic hwaiting hcq hlookup hreact hproduce =>
    have hown := clean_of_panic hregistered hcq hlookup hreact hproduce
    have hreact' := h.react hregistered hintact hcq hlookup hreact hown
    rw [hbuffs, hwaiting] at hproduce
    exact ⟨.handle addresses, _, h.handle_panic hregistered hwaiting hcq hreact' hproduce,
      h.panicked rfl rfl⟩
  | @handled addresses cqe rest eventInfo requests next hwaiting hcq hlookup hreact hproduce =>
    have hown : ∀ cfd, (cqe.entry.op.request, cqe.res) ≠ (.recv cfd, -ebadf) := by
      intro cfd heq
      apply hclean cfd
      rw [← heq]
      exact List.mem_map_of_mem (List.mem_append_right _ (List.mem_cons_self ..))
    have hreact' := h.react hregistered hintact hcq hlookup hreact hown
    rw [hwaiting] at hbuffs
    rw [hbuffs] at hproduce
    exact ⟨.handle addresses, h.handle hregistered hwaiting hbuffs hcq hreact' hproduce⟩
  | @completed i sqe res data hsqe hdata hres =>
    refine ⟨.complete i res, { s with ring := s.ring.complete i ⟨sqe, res⟩ }, ?_, ?_⟩
    · simp only [Server.act, h.ring, hsqe, if_pos hres]
    · rcases MultiEcho.Server.completed_same sh 0 sqe.op res data with ⟨hlfd, hsame, hpanic'⟩
      refine ⟨congrArg (IoRing.complete · i ⟨sqe, res⟩) h.ring, h.handled, h.reused,
        h.lfd.trans hlfd.symm, h.panic.trans hpanic'.symm, h.pc, fun _ => ?_⟩
      rw [hsame]
      exact hbuffs

end Steps

theorem acts_handled {id : Nat} {sh sh' : Shared} {l l' : Loop} {action : Action}
    (hregistered : Registered l l.ring.pending) (h : Acts id sh l action sh' l') :
    l.handled <+: l'.handled := by
  cases h with
  | started hpc hproduce =>
    rcases MultiEcho.Server.produce_eq_ok hproduce with ⟨prepared, -, -, rfl⟩
    exact List.prefix_rfl
  | startPanicked | submitted | submitFailed | waitFailed | unknown | unsupported | panicked
  | completed => exact List.prefix_rfl
  | handled hpc hcq hlookup hreact hproduce =>
    rcases turned_of_handled hregistered hcq hlookup hreact hproduce with ⟨sqes, hturned⟩
    exact ⟨_, hturned.handled.symm⟩

theorem Clean.of_prefix {handled handled' : List Cqe} (h : Clean handled')
    (hpre : handled <+: handled') : Clean handled :=
  fun cfd hmem => h cfd ((hpre.map _).subset hmem)

/-- The loop on one ring can follow. -/
theorem single_follows {lfd : Nat} {m : MultiEcho.Server.State 1}
    (h : Reachable MultiEcho.Server.step (.init 1 lfd) m) (hclean : Clean (m.loops 0).handled) :
    ∃ s, Reachable Server.step (.init lfd) s ∧ Matches m.shared (m.loops 0) s := by
  have hall : ∃ s, Reachable Server.step (.init lfd) s ∧
      (Clean (m.loops 0).handled → Matches m.shared (m.loops 0) s) := by
    apply h.simulate fun m s => Clean (m.loops 0).handled → Matches m.shared (m.loops 0) s
    · exact fun _ => ⟨rfl, rfl, rfl, rfl, rfl, rfl, fun _ => rfl⟩
    · intro m event m' s hm hs hmatches hstep
      by_cases hclean : Clean (m'.loops 0).handled
      · rcases MultiEcho.Server.step_sound hstep with ⟨hpanic, sh, l, hacts, rfl⟩
        rw [Fin.fin_one_eq_zero event.id] at hacts
        have hown : Function.update m.loops event.id l 0 = l := by
          rw [Fin.fin_one_eq_zero event.id, Function.update_self]
        dsimp only at hclean
        rw [hown] at hclean
        have hregistered := registered_of_reachable hm 0
        have hmatches := hmatches (hclean.of_prefix (acts_handled hregistered hacts))
        have hintact := intact_of_reachable hs hmatches.reused
        rcases hmatches.act hregistered hintact hpanic hclean hacts with
          ⟨event', s', hact, hmatches'⟩
        have hnext : Server.step s event' = some s' :=
          (if_pos (hmatches.panic.trans hpanic)).trans hact
        refine ⟨s', (Reachable.refl _ s).tail hnext, fun _ => ?_⟩
        dsimp only
        rw [hown]
        exact hmatches'
      · exact ⟨s, Reachable.refl _ s, fun hclean' => absurd hclean' hclean⟩
  rcases hall with ⟨s, hreach, hmatches⟩
  exact ⟨s, hreach, hmatches hclean⟩

theorem pc_ne_created {pc : MultiEcho.Server.Pc} (h : pc ≠ .created) : pcOf pc ≠ .created := by
  cases pc with
  | created => exact absurd rfl h
  | head | waiting | returned | empty => exact nofun

/-- On completions among which no receive fails with `EBADF`, the loop on one ring can go
along with the other one. Two runs that have processed the same completions have queued the
same operations exactly if no receive among them has failed with `EBADF`. -/
theorem same_queue_iff {lfd : Nat} {m : MultiEcho.Server.State 1}
    (hm : Reachable MultiEcho.Server.step (.init 1 lfd) m)
    (hstarted : (m.loops 0).pc ≠ .created) :
    (Clean (m.loops 0).handled → ∃ s, Reachable Server.step (.init lfd) s ∧ s.reused = false ∧
      s.pc ≠ .created ∧ history s.handled = history (m.loops 0).handled) ∧
    ∀ s, Reachable Server.step (.init lfd) s → s.reused = false → s.pc ≠ .created →
      history s.handled = history (m.loops 0).handled →
        ((m.loops 0).queued.map Op.request = s.queued.map Op.request ↔
          Clean (m.loops 0).handled) := by
  constructor
  · intro hclean
    rcases single_follows hm hclean with ⟨s, hreach, hmatches⟩
    refine ⟨s, hreach, hmatches.reused, ?_, by rw [hmatches.handled]⟩
    rw [hmatches.pc]
    exact pc_ne_created hstarted
  · intro s hs hkept hsstarted hsame
    rw [queues_agree_iff hm hs hkept hstarted hsstarted hsame.symm, hsame]
    rfl

def multiReceive (res : Int) (data : List UInt8) : List (MultiEcho.Server.Event 1) :=
  [⟨0, .start 1⟩, ⟨0, .submit 1⟩, ⟨0, .complete 0 5 []⟩, ⟨0, .handle [2, 3]⟩, ⟨0, .submit 2⟩,
    ⟨0, .complete 1 res data⟩, ⟨0, .handle [4]⟩]

def singleReceive (res : Int) : List Server.Event :=
  [.start 1, .submit 1, .complete 0 5, .handle [2, 3], .submit 2, .complete 1 res, .handle [4]]

theorem same_queue_one_message :
    ∃ (m : MultiEcho.Server.State 1) (s : Server.State),
      Reachable MultiEcho.Server.step (.init 1 3) m ∧ Reachable Server.step (.init 3) s ∧
        history s.handled = [(.accept 3, 5), (.recv 5, 3)] ∧
        (m.loops 0).queued.map Op.request = s.queued.map Op.request := by
  have hm : (run MultiEcho.Server.step (.init 1 3) (multiReceive 3 [104, 105, 10])).map
      (fun m => ((m.loops 0).pc, history (m.loops 0).handled)) =
      some (.head, [(.accept 3, 5), (.recv 5, 3)]) := by
    decide +kernel
  have hs : (run Server.step (.init 3) (singleReceive 3)).map
      (fun s => (s.pc, s.reused, history s.handled)) =
      some (.head, false, [(.accept 3, 5), (.recv 5, 3)]) := by
    decide +kernel
  rcases Reachable.of_view hm with ⟨m, hmreach, hmview⟩
  rcases Reachable.of_view hs with ⟨s, hsreach, hsview⟩
  simp only [Prod.mk.injEq] at hmview hsview
  refine ⟨m, s, hmreach, hsreach, hsview.2.2, ?_⟩
  have hstarted : (m.loops 0).pc ≠ .created := by simp [hmview.1]
  refine ((same_queue_iff hmreach hstarted).2 s hsreach hsview.2.1 ?_ ?_).mpr ?_
  · simp [hsview.1]
  · rw [hmview.2, hsview.2.2]
  · simp [Clean, hmview.2, ebadf]

/-- A receive fails with `EBADF`: one loop closes the descriptor, the other does not. -/
theorem ebadf_closes_on_one_ring :
    ∃ (m : MultiEcho.Server.State 1) (s : Server.State),
      Reachable MultiEcho.Server.step (.init 1 3) m ∧ Reachable Server.step (.init 3) s ∧
        s.reused = false ∧ history (m.loops 0).handled = history s.handled ∧
        (m.loops 0).queued.map Op.request = [.accept 3, .accept 3, .recv 5] ∧
        s.queued.map Op.request = [.accept 3, .accept 3, .recv 5, .close 5] := by
  have hm : (run MultiEcho.Server.step (.init 1 3) (multiReceive (-9) [])).map
      (fun m => (history (m.loops 0).handled, (m.loops 0).queued.map Op.request)) =
      some ([(.accept 3, 5), (.recv 5, -9)], [.accept 3, .accept 3, .recv 5]) := by
    decide +kernel
  have hs : (run Server.step (.init 3) (singleReceive (-9))).map
      (fun s => (s.reused, history s.handled, s.queued.map Op.request)) =
      some (false, [(.accept 3, 5), (.recv 5, -9)],
        [.accept 3, .accept 3, .recv 5, .close 5]) := by
    decide +kernel
  rcases Reachable.of_view hm with ⟨m, hmreach, hmview⟩
  rcases Reachable.of_view hs with ⟨s, hsreach, hsview⟩
  simp only [Prod.mk.injEq] at hmview hsview
  refine ⟨m, s, hmreach, hsreach, hsview.1, ?_, hmview.2, hsview.2.2⟩
  rw [hmview.1, hsview.2.1]

end IoWrapper.SingleEcho.Lockstep
