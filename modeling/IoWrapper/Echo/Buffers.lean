import IoWrapper.Echo.Accounting

/-! The 4096 buffers of the echo server. A buffer goes from the group to a
receive, to its completion, to a send, to an entry that gives it back and into
the group again, and is in one place at a time, as long as no receive that took
no buffer makes the server give one back. -/
namespace IoWrapper.Echo.Buffers
open Core.Machine Core.Pool Server Accounting

def queuedUse (b : Nat) (sqe : Sqe) : Nat :=
  match sqe.op with
  | .send _ bid _ => if bid = b then 1 else 0
  | .provideBuffers bid _ _ => if bid = b then 1 else 0
  | .accept _ | .recv _ _ => 0

def issuedUse (b : Nat) (f : Issued) : Nat :=
  match f.sqe.op with
  | .send _ bid _ => if bid = b then 1 else 0
  | .recv _ _ => if f.held = some b then 1 else 0
  | .accept _ | .provideBuffers _ _ _ => 0

/-- An unprocessed completion uses a buffer: of a receive that reports it, of a
send from it, or of an entry that failed to give it back. -/
def completedUse (b : Nat) (cqe : Cqe) : Nat :=
  match cqe.sqe.op with
  | .send _ bid _ => if bid = b then 1 else 0
  | .recv _ _ => if cqe.flags % 2 = 1 ∧ cqe.flags >>> 16 = b then 1 else 0
  | .provideBuffers bid _ _ => if cqe.res < 0 ∧ bid = b then 1 else 0
  | .accept _ => 0

def places (s : State) (b : Nat) : Nat :=
  s.group.count b + weigh (queuedUse b) (issuedUse b) (completedUse b) s

def opFd : Op → Option Nat
  | .recv fd _ => some fd
  | .send fd _ _ => some fd
  | .accept _ | .provideBuffers _ _ _ => none

def usesOn (s : State) (fd b : Nat) : Nat :=
  weigh (fun sqe => if opFd sqe.op = some fd then queuedUse b sqe else 0)
    (fun f => if opFd f.sqe.op = some fd then issuedUse b f else 0)
    (fun cqe => if opFd cqe.sqe.op = some fd then completedUse b cqe else 0) s

/-- A receive that completes without data reports a buffer. -/
def Carries (s : State) : Event → Prop
  | .complete i res _ => ∀ f ∈ s.inflight[i]?,
      f.sqe.userData.type = .read → res ≤ 0 → res ≠ -enobufs → f.held ≠ none
  | _ => True

instance (s : State) : (event : Event) → Decidable (Carries s event)
  | .complete i _ _ => inferInstanceAs (Decidable (∀ f ∈ s.inflight[i]?, _))
  | .submit _ | .handle | .endPass | .issue | .provide _ | .take .. | .giveBack _ =>
    inferInstanceAs (Decidable True)

/-- Every completion that makes the server use a buffer number reports one. -/
def Flagged (s : State) : Prop :=
  ∀ cqe ∈ s.cq, cqe.userData.type = .read → cqe.res ≠ -enobufs → cqe.flags % 2 = 1

theorem flagged_step {s t : State} {event : Event} (hs : Flagged s) (hcarries : Carries s event)
    (h : Step s event t) : Flagged t := by
  refine cq_step (fun cqe => cqe.userData.type = .read → cqe.res ≠ -enobufs →
    cqe.flags % 2 = 1) hs h ?_ ?_ ?_
  · intro cqe hother htype
    exact absurd htype hother
  · intro sqe res bid _ _ _ _
    exact bufferFlags_odd bid
  · intro i fd len sqe res data hevent hf hop hres _ htype hne
    rw [hevent] at hcarries
    exact absurd rfl (hcarries ⟨sqe, none⟩ hf htype hres hne)

theorem Flagged.odd {s : State} {cqe : Cqe} {rest : List Cqe} {fd len : Nat} (hs : Flagged s)
    (hcq : s.cq = cqe :: rest) (hop : cqe.sqe.op = .recv fd len) (hbufs : cqe.res ≠ -enobufs) :
    cqe.flags % 2 = 1 := by
  have hmem : cqe ∈ s.cq := by
    rw [hcq]
    exact List.mem_cons_self ..
  apply hs cqe hmem
  · rw [Cqe.userData, userData_of_op hop]
    rfl
  · exact hbufs

theorem places_answered {s : State} {cqe : Cqe} {rest : List Cqe} {b : Nat}
    (hcq : s.cq = cqe :: rest) (more : List Sqe)
    (hsame : total (queuedUse b) more = completedUse b cqe) :
    places (s.answered rest more) b = places s b := by
  have hmove := weigh_answered (queuedUse b) (issuedUse b) (completedUse b) hcq more
  unfold places
  rw [answered_group]
  omega

theorem places_issued {s : State} {sqe : Sqe} {rest : List Sqe} {b : Nat}
    (hsub : s.submitted = sqe :: rest) (htype : sqe.userData.type ≠ .provBuf) :
    places { s with submitted := rest, inflight := s.inflight ++ [⟨sqe, none⟩] } b =
      places s b := by
  have hmove := weigh_issued (queuedUse b) (issuedUse b) (completedUse b) hsub
  have hsame : issuedUse b ⟨sqe, none⟩ = queuedUse b sqe := by
    cases hop : sqe.op with
    | provideBuffers bid len nr =>
      rw [userData_of_op hop] at htype
      exact absurd rfl htype
    | _ => simp [issuedUse, queuedUse, hop]
  unfold places
  simp only
  omega

theorem places_provided {s : State} {sqe : Sqe} {rest : List Sqe} {b bid len nr : Nat}
    (res : Int) (hsub : s.submitted = sqe :: rest) (hop : sqe.op = .provideBuffers bid len nr) :
    places { s with
      submitted := rest
      group := if 0 ≤ res then s.group ++ [bid] else s.group
      cq := s.cq ++ [⟨sqe, res, 0⟩] } b = places s b := by
  have hmove := weigh_provided (queuedUse b) (issuedUse b) (completedUse b)
    (if 0 ≤ res then s.group ++ [bid] else s.group) ⟨sqe, res, 0⟩ hsub
  simp only [queuedUse, completedUse, hop] at hmove
  unfold places
  simp only
  by_cases hres : 0 ≤ res
  · simp only [hres, if_true, List.count_append, List.count_singleton, beq_iff_eq] at hmove ⊢
    simp only [show ¬ res < 0 by omega, false_and, if_false] at hmove
    omega
  · simp only [hres, if_false] at hmove ⊢
    simp only [show res < 0 by omega, true_and] at hmove
    omega

theorem places_took {s : State} {i b bid fd len : Nat} {sqe : Sqe}
    (hf : s.inflight[i]? = some ⟨sqe, none⟩) (hop : sqe.op = .recv fd len) (hbid : bid ∈ s.group) :
    places { s with
      group := s.group.erase bid
      inflight := s.inflight.set i ⟨sqe, some bid⟩ } b = places s b := by
  have hmove := weigh_lent (queuedUse b) (issuedUse b) (completedUse b) (s.group.erase bid)
    ⟨sqe, some bid⟩ hf
  simp only [issuedUse, hop, Option.some.injEq, reduceCtorEq, if_false] at hmove
  have hpos := List.count_pos_iff.mpr hbid
  unfold places
  simp only [List.count_erase, beq_iff_eq]
  by_cases hb : bid = b
  · subst hb
    simp only [if_true] at hmove ⊢
    omega
  · simp only [hb, if_false] at hmove ⊢
    omega

theorem places_gaveBack {s : State} {i b bid fd len : Nat} {sqe : Sqe}
    (hf : s.inflight[i]? = some ⟨sqe, some bid⟩) (hop : sqe.op = .recv fd len) :
    places { s with
      group := s.group ++ [bid]
      inflight := s.inflight.set i ⟨sqe, none⟩ } b = places s b := by
  have hmove := weigh_lent (queuedUse b) (issuedUse b) (completedUse b) (s.group ++ [bid])
    ⟨sqe, none⟩ hf
  simp only [issuedUse, hop, Option.some.injEq, reduceCtorEq, if_false] at hmove
  unfold places
  simp only [List.count_append, List.count_singleton, beq_iff_eq]
  omega

theorem places_post {s u : State} {i b : Nat} {f : Issued} {cqe : Cqe} (hgroup : u.group = s.group)
    (hweigh : weigh (queuedUse b) (issuedUse b) (completedUse b) u =
      weigh (queuedUse b) (issuedUse b) (completedUse b) s)
    (hf : u.inflight[i]? = some f) (hsame : completedUse b cqe = issuedUse b f) :
    places (u.post i cqe) b = places s b := by
  have hmove := weigh_post (queuedUse b) (issuedUse b) (completedUse b) cqe hf
  unfold places
  rw [post_group, hgroup]
  omega

/-- No step loses or doubles a buffer. -/
theorem places_step {s t : State} {event : Event} (hflagged : Flagged s) (h : Step s event t)
    (b : Nat) : places t b = places s b := by
  cases h with
  | submitted hpc =>
    unfold places
    rw [weigh_submitted]
  | passEnded | exited => rfl
  | handledProvide hpc hcq hop hres =>
    apply places_answered hcq
    simp only [total_nil, completedUse, hop]
    rw [if_neg (by omega)]
  | handledAccept hpc hcq hop | handledAcceptError hpc hcq hop | handledWrite hpc hcq hop =>
    apply places_answered hcq
    simp [completedUse, queuedUse, hop]
  | @handledHangup cqe rest fd len hpc hcq hop hres hbufs =>
    have hodd := hflagged.odd hcq hop hbufs
    have hclose : places ((s.answered rest
        [addProvideBuf (cqe.flags >>> 16) groupId]).close fd) b = places (s.answered rest
        [addProvideBuf (cqe.flags >>> 16) groupId]) b := by
      simp [places]
    rw [hclose]
    apply places_answered hcq
    simp [completedUse, queuedUse, hop, hodd]
  | handledRead hpc hcq hop hres =>
    have hodd := hflagged.odd hcq hop (by simp only [enobufs]; omega)
    apply places_answered hcq
    simp [completedUse, queuedUse, hop, hodd]
  | issued hsub htype => exact places_issued hsub htype
  | provided hsub hop => exact places_provided _ hsub hop
  | took hf hop hbid => exact places_took hf hop hbid
  | gaveBack hf hop => exact places_gaveBack hf hop
  | accepted hf hop | acceptFailed hf hop | received hf hop | recvFailed hf hop | sent hf hop =>
    exact places_post rfl rfl hf (by simp [completedUse, issuedUse, hop])

theorem places_init (listenFd b : Nat) :
    places (State.init listenFd) b = if b < buffersCount then 1 else 0 := by
  have hweigh : weigh (queuedUse b) (issuedUse b) (completedUse b) (State.init listenFd) = 0 :=
    rfl
  unfold places
  rw [hweigh, State.init, Nat.add_zero]
  split
  · rename_i hb
    rw [List.count_eq_one_of_mem List.nodup_range (List.mem_range.mpr hb)]
  · rename_i hb
    rw [List.count_eq_zero_of_not_mem fun hin => hb (List.mem_range.mp hin)]

theorem flagged_of_reachable {listenFd : Nat} {s : State}
    (h : Reachable (restrict Carries step) (State.init listenFd) s) : Flagged s := by
  refine h.invariant Flagged (fun cqe hcqe => by cases hcqe) fun s event t _ hs hstep => ?_
  have hboth := restrict_eq_some.mp hstep
  exact flagged_step hs hboth.1 (step_sound hboth.2)

theorem places_of_reachable {listenFd : Nat} {s : State}
    (h : Reachable (restrict Carries step) (State.init listenFd) s) (b : Nat) :
    places s b = if b < buffersCount then 1 else 0 := by
  refine h.invariant (fun s => places s b = if b < buffersCount then 1 else 0)
    (places_init listenFd b) fun s event t hreach hs hstep => ?_
  rw [places_step (flagged_of_reachable hreach) (step_sound (restrict_eq_some.mp hstep).2) b]
  exact hs

theorem places_le_one {listenFd : Nat} {s : State}
    (h : Reachable (restrict Carries step) (State.init listenFd) s) (b : Nat) :
    places s b ≤ 1 := by
  rw [places_of_reachable h b]
  split <;> omega

theorem usesOn_add_le (s : State) (b : Nat) {fd fd' : Nat} (hne : fd ≠ fd') :
    usesOn s fd b + usesOn s fd' b ≤ places s b := by
  have hapart : ∀ (own : Option Nat) (use : Nat),
      (if own = some fd then use else 0) + (if own = some fd' then use else 0) ≤ use := by
    intro own use
    by_cases hfd : own = some fd
    · have hother : own ≠ some fd' := by
        rw [hfd]
        exact fun heq => hne (Option.some.inj heq)
      rw [if_pos hfd, if_neg hother]
      exact Nat.le_refl _
    · rw [if_neg hfd]
      split <;> omega
  have hqueue := total_mono (queue s) fun sqe _ => hapart (opFd sqe.op) (queuedUse b sqe)
  have hinflight := total_mono s.inflight fun f _ => hapart (opFd f.sqe.op) (issuedUse b f)
  have hcq := total_mono s.cq fun cqe _ => hapart (opFd cqe.sqe.op) (completedUse b cqe)
  rw [total_add] at hqueue hinflight hcq
  unfold usesOn places weigh
  omega

/-- In every run in which each receive that completes without data reports a
buffer, each buffer is in exactly one place, and no two connections use it. -/
theorem buffer_in_one_place {listenFd : Nat} {s : State}
    (h : Reachable (restrict Carries step) (State.init listenFd) s) :
    (∀ b, places s b = if b < buffersCount then 1 else 0) ∧
      ∀ b fd fd', fd ≠ fd' → usesOn s fd b = 0 ∨ usesOn s fd' b = 0 := by
  refine ⟨places_of_reachable h, fun b fd fd' hne => ?_⟩
  have hone := places_le_one h b
  have hboth := usesOn_add_le s b hne
  omega

theorem buffer_in_one_place_while_sending : ∃ s,
    Reachable (restrict Carries step) (State.init 3) s ∧
      s.sq.map Sqe.op = [.send 5 7 2] ∧ 7 ∉ s.group ∧ places s 7 = 1 := by
  have hrun : (run (restrict Carries step) (State.init 3)
      (connect 5 ++ ([.take 0 7, .complete 0 2 [104, 105], .handle] : List Event))).map
        (fun s => (s.sq.map Sqe.op, decide (7 ∈ s.group))) =
      some ([.send 5 7 2], false) := by
    decide +kernel
  rcases Reachable.of_view hrun with ⟨s, hreach, hview⟩
  simp only [Prod.mk.injEq, decide_eq_false_iff_not] at hview
  exact ⟨s, hreach, hview.1, hview.2, (buffer_in_one_place hreach).1 7⟩

def hangupThenTwo : List Event :=
  connect 5 ++ [.complete 0 0 [], .handle, .endPass, .submit 1, .provide 0, .complete 0 5 [],
    .handle, .handle, .endPass, .submit 2, .issue, .issue, .complete 1 6 [], .handle, .endPass,
    .submit 2, .issue, .issue, .take 0 0, .take 1 0, .complete 0 2 [104, 105],
    .complete 0 2 [106, 107], .handle, .handle]

/-- On the hang-up the server gives back buffer 0, which it did not have, and
later it sends from it to two clients at once. -/
theorem hangup_doubles_buffer :
    (∃ s, Reachable step (State.init 3) s ∧ places s 0 = 2) ∧
      ∃ s, Reachable step (State.init 3) s ∧ s.sq.map Sqe.op = [.send 5 0 2, .send 6 0 2] := by
  have hfirst : (run step (State.init 3)
      (connect 5 ++ ([.complete 0 0 [], .handle] : List Event))).map
      (fun s => places s 0) = some 2 := by
    decide +kernel
  have hsecond : (run step (State.init 3) hangupThenTwo).map (fun s => s.sq.map Sqe.op) =
      some [.send 5 0 2, .send 6 0 2] := by
    decide +kernel
  rcases Reachable.of_view hfirst with ⟨s, hreach, hplaces⟩
  rcases Reachable.of_view hsecond with ⟨t, hreach', hsends⟩
  exact ⟨⟨s, hreach, hplaces⟩, t, hreach', hsends⟩

end IoWrapper.Echo.Buffers
