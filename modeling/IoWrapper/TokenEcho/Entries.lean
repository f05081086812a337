import IoWrapper.TokenEcho.Operations

/-! Where an entry is, from the time it is built. The kernel gets what has been
published; the rest waits behind the tail or in the backlog. What waits there has
one entry for a connection at most, so that a batch fills the queue with entries
that are not published only when there are more connections than places. -/
namespace IoWrapper.TokenEcho.Entries
open Core.Machine Core.Rings Core.Tables Server Operations

def filed (s : State) : List Entry :=
  s.handed ++ s.sq.published ++ s.sq.unpublished ++ s.backlog

def Kept (s : State) : Prop := s.built.Perm (filed s)

/-- Every entry built is in one of these places or has been dropped, once. -/
def Balanced (s : State) : Prop := s.built.Perm (filed s ++ s.dropped)

def unseen (s : State) : List Entry := s.sq.unpublished ++ s.backlog

theorem filed_submit (s : State) : (filed s.submit).Perm (filed s) := by
  rw [List.perm_iff_count]
  intro entry
  simp only [filed, State.submit, SubmissionQueue.submit_published,
    SubmissionQueue.submit_unpublished, List.count_append, List.count_nil]
  omega

theorem filed_sync (s : State) : filed s.sync = filed s := by
  simp [filed, State.sync]

theorem filed_settled (s : State) : (filed s.settled).Perm (filed s) := by
  unfold State.settled
  split
  · rw [filed_sync]
    exact filed_submit s
  · rw [filed_sync]

theorem filed_popped {s : State} {entry : Entry} {rest : List Entry}
    (h : s.backlog = entry :: rest) :
    (filed s).Perm (entry :: filed { s with backlog := rest }) := by
  rw [List.perm_iff_count]
  intro own
  simp only [filed, h, List.count_append, List.count_cons]
  omega

theorem filed_push {s : State} {sq : Sq} {entry : Entry} (h : s.sq.push entry = some sq) :
    (filed { s with sq := sq }).Perm (entry :: filed s) := by
  have hsq := SubmissionQueue.push_eq_some h
  rw [List.perm_iff_count]
  intro own
  simp only [filed, hsq.2.1, hsq.2.2, List.count_append, List.count_cons, List.count_nil]
  omega

theorem filed_enqueue (s : State) (entry : Entry) :
    (filed (s.enqueue entry)).Perm (entry :: filed s) := by
  unfold State.enqueue
  split
  · rename_i sq hpush
    exact filed_push hpush
  · rw [List.perm_iff_count]
    intro own
    simp only [filed, List.count_append, List.count_cons, List.count_nil]
    omega

theorem balanced_of {s t : State} (h : Balanced s) (hbuilt : t.built = s.built)
    (hfiled : (filed t).Perm (filed s)) (hdropped : t.dropped = s.dropped) : Balanced t := by
  unfold Balanced
  rw [hbuilt, hdropped]
  exact h.trans (hfiled.symm.append_right _)

theorem balanced_enqueue {s : State} (h : Balanced s) (entry : Entry) :
    Balanced (s.enqueue entry) := by
  unfold Balanced
  rw [enqueue_built, enqueue_dropped]
  have hfiled := (filed_enqueue s entry).symm.append_right s.dropped
  exact (List.perm_append_singleton entry s.built).trans ((h.cons entry).trans hfiled)

theorem balanced_accepts {s : State} (h : Balanced s) : Balanced s.accepts := by
  rcases SubmissionQueue.pushTimes_spec s.accept.entry s.accept.count s.sq with
    ⟨pushed, hcount, hpublished, hunpublished⟩
  have hpushed : s.accept.count - s.accepts.accept.count = pushed := by
    simp only [State.accepts, AcceptCount.pushTo]
    omega
  have hbuilt : s.accepts.built = s.built ++ List.replicate pushed s.accept.entry := by
    rw [← hpushed]
    rfl
  unfold Balanced at h ⊢
  rw [hbuilt]
  rw [List.perm_iff_count] at h ⊢
  intro own
  have := h own
  simp only [filed, State.accepts, AcceptCount.pushTo, SubmissionQueue.sync_published,
    SubmissionQueue.sync_unpublished, hpublished, hunpublished, List.count_append,
    List.count_nil] at this ⊢
  omega

theorem balanced_step {s t : State} {event : Event} (h : Balanced s) (hstep : Step s event t) :
    Balanced t := by
  cases hstep with
  | submitted => exact balanced_of h rfl (filed_submit s) rfl
  | busy | failed | woke | cleanBusy | handledError | panicked | handledHangup | passEnded
  | completed => exact h
  | cleaned =>
    exact balanced_of h (settled_built s) (filed_settled s) (settled_dropped s)
  | @refilled result entry rest sq hpc hbacklog hpush =>
    have hpopped := filed_popped ((settled_backlog s).trans hbacklog)
    have hpushed : (filed { s.settled with backlog := rest, sq := sq }).Perm
        (entry :: filed { s.settled with backlog := rest }) :=
      filed_push (s := { s.settled with backlog := rest }) hpush
    exact balanced_of h (settled_built s) (hpushed.trans (hpopped.symm.trans (filed_settled s)))
      (settled_dropped s)
  | @dropped result entry rest hpc hbacklog hpush =>
    have hpopped := filed_popped ((settled_backlog s).trans hbacklog)
    have hall := ((filed_settled s).symm.trans hpopped).append_right s.dropped
    have hback : (entry :: (filed { s.settled with backlog := rest } ++ s.dropped)).Perm
        (filed { s.settled with backlog := rest } ++ (s.dropped ++ [entry])) := by
      rw [← List.append_assoc]
      exact (List.perm_append_singleton entry _).symm
    unfold Balanced at h ⊢
    rw [show State.built { s.settled with
      backlog := rest, dropped := s.dropped ++ [entry] } = s.built from settled_built s]
    exact h.trans (hall.trans hback)
  | accepts => exact balanced_accepts h
  | handledAccept | handledPoll | handledRead | handledWrite =>
    apply balanced_enqueue
    exact h

theorem balanced_of_reachable {listenFd : Nat} {s : State}
    (h : Reachable step (State.init listenFd) s) : Balanced s := by
  refine h.invariant Balanced (List.Perm.refl _) ?_
  intro s event t _ hs hstep
  exact balanced_step hs (step_sound hstep)

theorem kept_iff_dropped_nil {listenFd : Nat} {s : State}
    (h : Reachable step (State.init listenFd) s) : Kept s ↔ s.dropped = [] := by
  have hbalanced := balanced_of_reachable h
  unfold Balanced at hbalanced
  constructor
  · intro hkept
    have hlength := (hkept.symm.trans hbalanced).length_eq
    rw [List.length_append] at hlength
    exact List.length_eq_zero_iff.mp (by omega)
  · intro hnil
    rw [hnil, List.append_nil] at hbalanced
    exact hbalanced

theorem unseen_enqueue (s : State) (entry : Entry) :
    (unseen (s.enqueue entry)).Perm (entry :: unseen s) := by
  unfold State.enqueue
  split
  · rename_i sq hpush
    have hsq := SubmissionQueue.push_eq_some hpush
    simp only [unseen, hsq.2.2, List.append_assoc]
    exact List.perm_middle
  · simp only [unseen, ← List.append_assoc]
    exact List.perm_append_singleton entry _

/-- No accept waits behind the tail or in the backlog: `push_to` publishes it. -/
def Quiet (s : State) : Prop := ∀ entry ∈ unseen s, entry.userData ≠ s.accept.entry.userData

theorem quiet_enqueue {s : State} {entry : Entry} (h : Quiet s)
    (hentry : entry.userData ≠ s.accept.entry.userData) : Quiet (s.enqueue entry) := by
  intro own hown
  rw [enqueue_accept]
  rcases List.mem_cons.mp ((unseen_enqueue s entry).mem_iff.mp hown) with heq | hown
  · rw [heq]
    exact hentry
  · exact h own hown

theorem quiet_of_subset {s t : State} (h : Quiet s) (haccept : t.accept.entry = s.accept.entry)
    (hsubset : ∀ entry ∈ unseen t, entry ∈ unseen s) : Quiet t := by
  intro entry hentry
  rw [haccept]
  exact h entry (hsubset entry hentry)

theorem quiet_step {s t : State} {event : Event} (h : Quiet s)
    (hlinked : Linked s.accept.entry s.tokenAlloc (outstanding s)) (hstep : Step s event t) :
    Quiet t := by
  cases hstep with
  | submitted | busy | failed | woke | cleanBusy | handledError | panicked | handledHangup
  | passEnded | completed => exact h
  | cleaned hpc hbacklog =>
    intro entry hentry
    simp [unseen, hbacklog] at hentry
  | @refilled result entry rest sq hpc hbacklog hpush =>
    have hsq := (SubmissionQueue.push_eq_some hpush).2.2
    rw [settled_unpublished] at hsq
    refine quiet_of_subset h (by rw [settled_accept]) ?_
    intro own hown
    simp only [unseen, hsq, List.nil_append] at hown
    rw [unseen, hbacklog]
    exact List.mem_append_right _ hown
  | @dropped result entry rest hpc hbacklog hpush =>
    refine quiet_of_subset h (by rw [settled_accept]) ?_
    intro own hown
    simp only [unseen, settled_unpublished, List.nil_append] at hown
    rw [unseen, hbacklog]
    exact List.mem_append_right _ (List.mem_cons_of_mem entry hown)
  | accepts =>
    refine quiet_of_subset h rfl ?_
    intro own hown
    exact List.mem_append_right _ hown
  | @handledAccept key cqe rest hpc hcq hret htoken hkey =>
    apply quiet_enqueue
    · exact h
    · exact (hlinked.notMem hkey).1
  | handledPoll hpc hcq hret htoken =>
    apply quiet_enqueue
    · exact h
    · exact hlinked.key_ne htoken Token.noConfusion
  | handledRead hpc hcq hret htoken =>
    apply quiet_enqueue
    · exact h
    · exact hlinked.key_ne htoken Token.noConfusion
  | handledWrite hpc hcq hret htoken =>
    apply quiet_enqueue
    · exact h
    · exact hlinked.key_ne htoken Token.noConfusion

theorem quiet_of_reachable {listenFd : Nat} {s : State}
    (h : Reachable step (State.init listenFd) s) : Quiet s := by
  refine h.invariant Quiet (fun entry hentry => by cases hentry) ?_
  intro s event t hreach hs hstep
  exact quiet_step hs (linked_of_reachable hreach) (step_sound hstep)

def connections (s : State) : Nat := weight Token.isConnection s.tokenAlloc

theorem unseen_le {listenFd : Nat} {s : State} (h : Reachable step (State.init listenFd) s) :
    (unseen s).length ≤ connections s := by
  have hlinked := linked_of_reachable h
  have hquiet := quiet_of_reachable h
  have hsub : (unseen s).Sublist (outstanding s) := by
    unfold unseen outstanding
    simp only [List.append_assoc]
    refine List.Sublist.trans ?_ (List.sublist_append_right s.sq.published _)
    rw [← List.append_assoc]
    exact List.sublist_append_left _ _
  rw [← List.length_map Entry.userData]
  apply length_le_weight
  · rw [List.nodup_iff_count_le_one]
    intro key
    by_cases hkey : key = s.accept.entry.userData
    · rw [List.count_eq_zero.mpr]
      · exact Nat.zero_le 1
      · intro hmem
        rcases List.mem_map.mp hmem with ⟨entry, hentry, heq⟩
        exact hquiet entry hentry (heq.trans hkey)
    · rw [List.count_eq_countP, List.countP_map]
      exact Nat.le_trans hsub.countP_le (hlinked.single key hkey)
  · intro key hkey
    rcases List.mem_map.mp hkey with ⟨entry, hentry, rfl⟩
    rcases hlinked.serves entry (hsub.mem hentry) with heq | ⟨token, htoken, hserves⟩
    · exact absurd (by rw [heq]) (hquiet entry hentry)
    · refine ⟨token, htoken, ?_⟩
      unfold Token.isConnection
      rw [if_neg (serves_ne_accept hserves)]
      exact Nat.one_pos

/-- If there is no room when the head has been reloaded, the queue is full of entries
that had not been published. -/
theorem unpublished_of_settled_full {s : State} (h : s.settled.sq.used = ringEntries) :
    s.sq.unpublished.length = ringEntries := by
  unfold State.settled at h
  split at h
  · simp only [State.sync, State.submit, SubmissionQueue.sync_used,
      SubmissionQueue.submit_published, SubmissionQueue.submit_unpublished, List.length_nil] at h
    omega
  · rename_i hfull
    rw [SubmissionQueue.isFull_iff] at hfull
    have hle := s.sq.used_le
    simp only [State.sync, SubmissionQueue.sync_used] at h
    unfold SubmissionQueue.used at hfull hle
    omega

theorem dropped_step {s t : State} {event : Event} (h : Step s event t) :
    t.dropped = s.dropped ∨ ringEntries < (unseen s).length := by
  cases h with
  | @dropped result entry rest hpc hbacklog hpush =>
    right
    have hfull := unpublished_of_settled_full (SubmissionQueue.push_eq_none.mp hpush)
    rw [unseen, hbacklog, List.length_append, List.length_cons]
    omega
  | submitted | busy | failed | woke | cleanBusy | accepts | handledError | panicked
  | handledHangup | passEnded | completed => exact Or.inl rfl
  | cleaned | refilled => exact Or.inl (settled_dropped s)
  | handledAccept | handledPoll | handledRead | handledWrite => exact Or.inl (enqueue_dropped _ _)

def Within (limit : Nat) (s : State) (_ : Event) : Prop := connections s ≤ limit

instance (limit : Nat) (s : State) (event : Event) : Decidable (Within limit s event) :=
  inferInstanceAs (Decidable (connections s ≤ limit))

theorem dropped_nil_of_within {listenFd : Nat} {s : State}
    (h : Reachable (restrict (Within ringEntries) step) (State.init listenFd) s) :
    s.dropped = [] := by
  refine h.invariant (fun s => s.dropped = []) rfl ?_
  intro s event t hreach hs hstep
  rcases restrict_eq_some.mp hstep with ⟨hwithin, hstep⟩
  rcases dropped_step (step_sound hstep) with heq | hmany
  · rw [heq]
    exact hs
  · have hle := unseen_le hreach.of_restrict
    unfold Within at hwithin
    omega

/-- In the completion loop, and when it is over, every entry that is not published
answers a completion that the kernel still sees. -/
def Backed (s : State) : Prop :=
  s.pc = .completions ∨ s.pc = .submitAndWait → s.sq.unpublished.length ≤ s.cq.walked.length

theorem enqueue_unpublished_le (s : State) (entry : Entry) :
    (s.enqueue entry).sq.unpublished.length ≤ s.sq.unpublished.length + 1 := by
  unfold State.enqueue
  split
  · rename_i sq hpush
    simp [(SubmissionQueue.push_eq_some hpush).2.2]
  · exact Nat.le_succ _

@[simp] theorem enqueue_cq (s : State) (entry : Entry) : (s.enqueue entry).cq = s.cq := by
  unfold State.enqueue
  split <;> rfl

theorem backed_enqueue {s t : State} {cqe : Cqe} {rest : List Cqe} {entry : Entry}
    (h : Backed s) (hpc : s.pc = .completions) (hsq : t.sq = s.sq)
    (hcq : t.cq = s.cq.next cqe rest) : Backed (t.enqueue entry) := by
  intro _
  have hle := h (Or.inl hpc)
  have hpush := enqueue_unpublished_le t entry
  rw [hsq] at hpush
  rw [enqueue_cq, hcq]
  simp only [CompletionQueue.next, List.length_append, List.length_singleton]
  omega

theorem backed_walked {s t : State} {cqe : Cqe} {rest : List Cqe} (h : Backed s)
    (hpc : s.pc = .completions) (hsq : t.sq = s.sq) (hcq : t.cq = s.cq.next cqe rest) :
    Backed t := by
  intro _
  have hle := h (Or.inl hpc)
  rw [hsq, hcq]
  simp only [CompletionQueue.next, List.length_append, List.length_singleton]
  omega

theorem backed_elsewhere {s : State} (hcompletions : s.pc ≠ .completions)
    (hwait : s.pc ≠ .submitAndWait) : Backed s := by
  intro hpc
  exact absurd hpc (not_or.mpr ⟨hcompletions, hwait⟩)

theorem backed_step {s t : State} {event : Event} (h : Backed s) (hstep : Step s event t) :
    Backed t := by
  cases hstep with
  | submitted | busy | failed | woke | cleanBusy | cleaned | panicked =>
    exact backed_elsewhere Pc.noConfusion Pc.noConfusion
  | refilled hpc | dropped hpc =>
    apply backed_elsewhere
    · rw [show State.pc _ = s.pc from settled_pc s, hpc]
      exact Pc.noConfusion
    · rw [show State.pc _ = s.pc from settled_pc s, hpc]
      exact Pc.noConfusion
  | accepts =>
    intro _
    exact Nat.zero_le _
  | handledError hpc => exact backed_walked h hpc rfl rfl
  | handledHangup hpc => exact backed_walked h hpc rfl rfl
  | handledAccept hpc => exact backed_enqueue h hpc rfl rfl
  | handledPoll hpc => exact backed_enqueue h hpc rfl rfl
  | handledRead hpc => exact backed_enqueue h hpc rfl rfl
  | handledWrite hpc => exact backed_enqueue h hpc rfl rfl
  | passEnded hpc =>
    intro _
    exact h (Or.inl hpc)
  | completed => exact h

theorem backed_of_reachable {listenFd : Nat} {s : State}
    (h : Reachable step (State.init listenFd) s) : Backed s := by
  refine h.invariant Backed (fun _ => Nat.le_refl 0) ?_
  intro s event t _ hs hstep
  exact backed_step hs (step_sound hstep)

/-- When the loop comes to `submit_and_wait` with entries that are not published, the
kernel sees a completion, and the call returns. -/
theorem submitAndWait_returns {listenFd : Nat} {s : State}
    (h : Reachable step (State.init listenFd) s) (hpc : s.pc = .submitAndWait)
    (hunpublished : s.sq.unpublished ≠ []) :
    s.cq.outstanding ≠ [] ∧ ∃ t, run step s [.submitAndWait .ok, .wake] = some t := by
  have hle := backed_of_reachable h (Or.inr hpc)
  have hpos := List.length_pos_iff.mpr hunpublished
  have hcq : s.cq.outstanding ≠ [] := by
    intro hnil
    have hwalked : s.cq.walked = [] := by
      unfold CompletionQueue.outstanding at hnil
      exact (List.append_eq_nil_iff.mp (List.append_eq_nil_iff.mp hnil).1).1
    rw [hwalked, List.length_nil] at hle
    omega
  have hsubmit : step s (.submitAndWait .ok) = some { s.submit with pc := .waiting } := by
    simp only [step, hpc, if_true]
  have hwake : step { s.submit with pc := .waiting } .wake =
      some { s.submit with cq := s.cq.sync, pc := .cleanBacklog } :=
    if_pos ⟨rfl, hcq⟩
  refine ⟨hcq, { s.submit with cq := s.cq.sync, pc := .cleanBacklog }, ?_⟩
  rw [run_cons, hsubmit, Option.bind_some, run_cons, hwake]
  rfl

theorem oneConnect_spec :
    (run step (State.init 3) oneConnect).map (fun s => (s.pc, s.sq.unpublished)) =
      some (.submitAndWait, [⟨.pollAdd 5, 1⟩]) := by
  decide +kernel

theorem oneConnect_returns : ∃ s, Reachable step (State.init 3) s ∧ s.pc = .submitAndWait ∧
    s.sq.unpublished ≠ [] ∧ s.cq.outstanding ≠ [] := by
  rcases Reachable.of_view oneConnect_spec with ⟨s, hreach, hview⟩
  have hpc : s.pc = .submitAndWait := congrArg Prod.fst hview
  have hunpublished : s.sq.unpublished = [⟨.pollAdd 5, 1⟩] := congrArg Prod.snd hview
  have hsome : s.sq.unpublished ≠ [] := by
    rw [hunpublished]
    exact List.cons_ne_nil _ _
  exact ⟨s, hreach, hpc, hsome, (submitAndWait_returns hreach hpc hsome).1⟩

end IoWrapper.TokenEcho.Entries
