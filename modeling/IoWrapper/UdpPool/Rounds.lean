import IoWrapper.UdpPool.Worker

/-! What becomes of the requests. The queues are filled once and nothing is
pushed again, so each ring has a fixed number of requests for good; and since a
round takes something from every ring, there are only so many rounds. -/
namespace IoWrapper.UdpPool.Rounds
open Core.Machine Core.Rings Worker

def quota (s : State) : Nat := min s.numSqes maxSqes

theorem fillLoop_spec (left : Nat) (sq : Sq) :
    ∃ full, fillLoop left sq = some full ∧ full.published = sq.published ∧
      full.unpublished.length = sq.unpublished.length + min left (maxSqes - sq.used) := by
  induction left generalizing sq with
  | zero => exact ⟨sq, rfl, rfl, by simp⟩
  | succ left ih =>
    have hle := sq.used_le
    cases hfull : sq.isFull with
    | true =>
      refine ⟨sq, by simp [fillLoop, hfull], rfl, ?_⟩
      rw [SubmissionQueue.isFull_iff] at hfull
      omega
    | false =>
      cases hpush : sq.push () with
      | none =>
        rw [SubmissionQueue.push_eq_none, ← SubmissionQueue.isFull_iff, hfull] at hpush
        cases hpush
      | some next =>
        rcases ih next with ⟨full, hloop, hpublished, hcount⟩
        rcases SubmissionQueue.push_eq_some hpush with ⟨htaken, hsame, hnew⟩
        refine ⟨full, by simp [fillLoop, hfull, hpush, hloop], hpublished.trans hsame, ?_⟩
        have hused : next.used = sq.used + 1 := by
          simp [SubmissionQueue.used, htaken, hsame, hnew]
          omega
        have hroom : sq.used ≠ maxSqes := by
          rw [ne_eq, ← SubmissionQueue.isFull_iff, hfull]
          simp
        rw [hcount, hused, hnew, List.length_append, List.length_singleton]
        omega

theorem fillSq_createRing (numSqes : Nat) :
    ∃ sq, fillSq createRing.sq numSqes = some sq ∧ sq.unpublished = [] ∧
      sq.published.length = min numSqes maxSqes := by
  rcases fillLoop_spec numSqes createRing.sq.sync with ⟨full, hloop, hpublished, hcount⟩
  refine ⟨full.sync, by rw [fillSq, hloop]; rfl, rfl, ?_⟩
  rw [SubmissionQueue.sync_published, List.length_append, hpublished, hcount]
  simp [createRing, SubmissionQueue.empty, SubmissionQueue.sync, SubmissionQueue.used]

theorem drainLoop_spec (results : List Int) (cq : CompletionQueue Int)
    (h : cq.visible = results) :
    drainLoop results cq =
      if results.all accepted then some ⟨cq.walked ++ results, [], cq.arrived⟩ else none := by
  induction results generalizing cq with
  | nil =>
    rw [drainLoop, List.all_nil, if_pos rfl, List.append_nil, ← h]
  | cons result results ih =>
    rw [drainLoop, List.all_cons]
    cases haccepted : accepted result with
    | false => simp
    | true =>
      rw [if_pos rfl, ih (cq.next result results) rfl]
      simp [CompletionQueue.next]

/-- A queue of which nothing has been looked at yet is emptied, or the thread
panics over one of the results. -/
theorem drainCq_spec (cq : CompletionQueue Int) (hvisible : cq.visible = []) :
    drainCq cq = if cq.arrived.all accepted then some (CompletionQueue.empty Int) else none := by
  have hsync : cq.sync = ⟨[], cq.arrived, []⟩ := by
    rw [CompletionQueue.sync, hvisible, List.nil_append]
  rw [drainCq, hsync, drainLoop_spec _ _ rfl]
  split
  · simp [CompletionQueue.sync, CompletionQueue.empty]
  · rfl

/-- A ring that has been filled: where its requests are. -/
structure Stocked (quota : Nat) (ring : Ring) : Prop where
  unpublished : ring.sq.unpublished = []
  walked : ring.cq.walked = []
  visible : ring.cq.visible = []
  count : ring.sq.published.length + ring.inflight + ring.cq.arrived.length +
    ring.drained.length = quota
  accepted : ∀ result ∈ ring.drained, accepted result

def Unfilled : Pc → Nat → Prop
  | .filling j, k => j ≤ k
  | .submitting j, k => j < k
  | .returned, _ => True
  | _, _ => False

def Filled : Pc → Nat → Prop
  | .filling j, k => k < j
  | .submitting j, k => k ≤ j
  | _, _ => True

/-- What rounds can still be made with, for a ring: an entry can be submitted
and then completed. -/
def load (ring : Ring) : Nat :=
  2 * ring.sq.published.length + ring.inflight + ring.cq.arrived.length

/-- In the present round the ring at a place has paid, or can, from when the
thread has waited for it. -/
def Due (rounds quota : Nat) : Pc → Nat → Ring → Prop
  | .filling _, _, _ | .submitting _, _, _ => rounds = 0
  | .waiting j, k, ring => k < j → rounds + 1 + load ring ≤ 2 * quota ∨ ring.cq.arrived ≠ []
  | .draining j, k, ring =>
    rounds + 1 + load ring ≤ 2 * quota ∨ j ≤ k ∧ ring.cq.arrived ≠ []
  | _, _, _ => True

structure Kept (s : State) (k : Nat) (ring : Ring) : Prop where
  stocked : ring = createRing ∧ Unfilled s.pc k ∨ Stocked (quota s) ring ∧ Filled s.pc k
  paid : s.rounds + load ring ≤ 2 * quota s
  due : Due s.rounds (quota s) s.pc k ring

def Inv (s : State) : Prop := ∀ k ring, s.rings[k]? = some ring → Kept s k ring

theorem put_cases {s : State} {k j : Nat} {ring other : Ring} {pc : Pc}
    (h : (s.put k ring pc).rings[j]? = some other) :
    (j = k ∧ other = ring) ∨ (j ≠ k ∧ s.rings[j]? = some other) := by
  rw [State.put, List.getElem?_set] at h
  split at h
  · rename_i hkj
    split at h
    · exact Or.inl ⟨hkj.symm, (Option.some.inj h).symm⟩
    · cases h
  · rename_i hkj
    exact Or.inr ⟨Ne.symm hkj, h⟩

theorem inv_init (sqes numRings : Nat) : Inv (State.init sqes numRings) := by
  intro k ring hk
  have hring : ring = createRing := by
    rw [State.init, List.getElem?_replicate] at hk
    split at hk
    · exact (Option.some.inj hk).symm
    · cases hk
  refine ⟨Or.inl ⟨hring, Nat.zero_le k⟩, ?_, rfl⟩
  rw [hring]
  simp [load, createRing, SubmissionQueue.empty, CompletionQueue.empty, State.init]

section Steps

variable {s : State} {k : Nat} {ring : Ring}

theorem inv_put {next : Ring} {pc : Pc} (hs : Inv s) (hk : s.rings[k]? = some ring)
    (hnext : Kept s k ring → Kept (s.put k next pc) k next)
    (hother : ∀ j other, j ≠ k → Kept s j other → Kept (s.put k next pc) j other) :
    Inv (s.put k next pc) := by
  intro j other hj
  rcases put_cases hj with ⟨rfl, rfl⟩ | ⟨hne, hold⟩
  · exact hnext (hs _ _ hk)
  · exact hother j other hne (hs j other hold)

theorem inv_fill (hs : Inv s) (hpc : s.pc = .filling k) (hk : s.rings[k]? = some ring) :
    Inv (s.fill k ring) := by
  rcases (hs k ring hk).stocked with ⟨rfl, -⟩ | ⟨-, hfilled⟩
  · rcases fillSq_createRing s.numSqes with ⟨sq, hfill, hunpublished, hpublished⟩
    have hquota : sq.published.length = quota s := hpublished
    rw [State.fill, hfill]
    refine inv_put hs hk (fun hkept => ?_) fun j other hne hkept => ?_
    · have hrounds := hkept.due
      rw [hpc] at hrounds
      refine ⟨Or.inr ⟨⟨hunpublished, rfl, rfl, ?_, ?_⟩, Nat.le_refl k⟩, ?_, hrounds⟩
      · change sq.published.length + 0 + 0 + 0 = quota s
        omega
      · exact fun result hmem => absurd hmem List.not_mem_nil
      · change s.rounds + (2 * sq.published.length + 0 + 0) ≤ 2 * quota s
        rw [show s.rounds = 0 from hrounds]
        omega
    · have hdue := hkept.due
      have hstocked := hkept.stocked
      rw [hpc] at hdue hstocked
      refine ⟨hstocked.imp (And.imp_right fun hle => ?_) (And.imp_right Nat.le_of_lt), hkept.paid,
        hdue⟩
      exact Nat.lt_of_le_of_ne hle hne.symm
  · rw [hpc] at hfilled
    exact absurd hfilled (Nat.lt_irrefl k)

theorem stocked_taken {quota count : Nat} (h : Stocked quota ring)
    (hcount : count ≤ ring.sq.published.length) : Stocked quota (ring.taken count) := by
  refine ⟨h.unpublished, h.walked, h.visible, ?_, h.accepted⟩
  have := h.count
  simp only [Ring.taken, SubmissionQueue.submitSome, List.length_drop]
  omega

theorem load_taken {count : Nat} (hcount : count ≤ ring.sq.published.length) :
    load (ring.taken count) + count = load ring := by
  simp only [load, Ring.taken, SubmissionQueue.submitSome, List.length_drop]
  omega

theorem inv_submit {count : Nat} (hs : Inv s) (hpc : s.pc = .submitting k)
    (hk : s.rings[k]? = some ring) (hcount : count ≤ ring.sq.published.length) :
    Inv (s.put k (ring.taken count) (.filling (k + 1))) := by
  have hload := load_taken hcount
  refine inv_put hs hk (fun hkept => ?_) fun j other hne hkept => ?_
  · have hpaid := hkept.paid
    have hdue := hkept.due
    have hstocked := hkept.stocked
    rw [hpc] at hdue hstocked
    rcases hstocked with ⟨-, hun⟩ | ⟨hstocked, -⟩
    · exact absurd hun (Nat.lt_irrefl k)
    · refine ⟨Or.inr ⟨stocked_taken hstocked hcount, Nat.lt_succ_self k⟩, ?_, hdue⟩
      change s.rounds + load (ring.taken count) ≤ 2 * quota s
      omega
  · have hdue := hkept.due
    have hstocked := hkept.stocked
    rw [hpc] at hdue hstocked
    exact ⟨hstocked.imp id (And.imp_right Nat.lt_succ_of_le), hkept.paid, hdue⟩

theorem inv_waited {count : Nat} (hs : Inv s) (hpc : s.pc = .waiting k)
    (hk : s.rings[k]? = some ring) (hcount : count ≤ ring.sq.published.length)
    (hwoken : 0 < count ∨ ring.cq.outstanding ≠ []) :
    Inv (s.put k (ring.taken count) (.waiting (k + 1))) := by
  have hload := load_taken hcount
  refine inv_put hs hk (fun hkept => ?_) fun j other hne hkept => ?_
  · have hpaid := hkept.paid
    have hstocked := hkept.stocked
    rw [hpc] at hstocked
    rcases hstocked with ⟨-, hun⟩ | ⟨hstocked, -⟩
    · exact absurd hun id
    · refine ⟨Or.inr ⟨stocked_taken hstocked hcount, trivial⟩, ?_, fun _ => ?_⟩
      · change s.rounds + load (ring.taken count) ≤ 2 * quota s
        omega
      -- The round is paid with what the wait has submitted, or will be with what is there.
      · rcases hwoken with hpos | hout
        · left
          change s.rounds + 1 + load (ring.taken count) ≤ 2 * quota s
          omega
        · right
          rw [CompletionQueue.outstanding, hstocked.walked, hstocked.visible] at hout
          exact hout
  · have hdue := hkept.due
    have hstocked := hkept.stocked
    rw [hpc] at hdue hstocked
    exact ⟨hstocked, hkept.paid, fun hlt => hdue (by omega)⟩

theorem inv_drain (hs : Inv s) (hpc : s.pc = .draining k) (hk : s.rings[k]? = some ring) :
    Inv (s.drain k ring) := by
  have hkept := hs k ring hk
  have hpaid := hkept.paid
  have hdue := hkept.due
  have hstocked := hkept.stocked
  rw [hpc] at hdue hstocked
  rcases hstocked with ⟨-, hun⟩ | ⟨hstocked, -⟩
  · exact absurd hun id
  · have hvisible : ring.cq.sync.visible = ring.cq.arrived := by
      rw [CompletionQueue.sync, hstocked.visible, List.nil_append]
    have hcount := hstocked.count
    unfold State.drain
    rw [drainCq_spec ring.cq hstocked.visible, hvisible]
    by_cases hall : ring.cq.arrived.all accepted
    · rw [if_pos hall]
      refine inv_put hs hk (fun _ => ?_) fun j other hne hkept => ?_
      · refine ⟨Or.inr ⟨⟨hstocked.unpublished, rfl, rfl, ?_, ?_⟩, trivial⟩, ?_, Or.inl ?_⟩
        · change ring.sq.published.length + ring.inflight + 0 +
            (ring.drained ++ ring.cq.arrived).length = quota s
          rw [List.length_append]
          omega
        · intro result hmem
          rcases List.mem_append.mp hmem with hold | hnew
          · exact hstocked.accepted result hold
          · exact List.all_eq_true.mp hall result hnew
        · change s.rounds + (2 * ring.sq.published.length + ring.inflight + 0) ≤ 2 * quota s
          rw [load] at hpaid
          omega
        · change s.rounds + 1 + (2 * ring.sq.published.length + ring.inflight + 0) ≤ 2 * quota s
          rw [load] at hpaid
          rcases hdue with hround | ⟨-, harrived⟩
          · rw [load] at hround
            omega
          · have := List.length_pos_iff.mpr harrived
            omega
      · have hdue := hkept.due
        have hstocked := hkept.stocked
        rw [hpc] at hdue hstocked
        exact ⟨hstocked, hkept.paid, hdue.imp_right fun hlate => ⟨by omega, hlate.2⟩⟩
    · rw [if_neg hall]
      intro j other hj
      have hstocked := (hs j other hj).stocked
      rw [hpc] at hstocked
      exact ⟨hstocked, (hs j other hj).paid, trivial⟩

theorem inv_completed {result : Int} (hs : Inv s) (hk : s.rings[k]? = some ring)
    (hbusy : 0 < ring.inflight) : Inv (s.put k (ring.completed result) s.pc) := by
  refine inv_put hs hk (fun hkept => ?_)
    fun j other hne hkept => ⟨hkept.stocked, hkept.paid, hkept.due⟩
  have hload : load (ring.completed result) = load ring := by
    simp only [load, Ring.completed, CompletionQueue.post, List.length_append,
      List.length_singleton]
    omega
  have harrived : (ring.completed result).cq.arrived ≠ [] := by
    simp [Ring.completed, CompletionQueue.post]
  refine ⟨?_, ?_, ?_⟩
  · rcases hkept.stocked with ⟨rfl, -⟩ | ⟨hstocked, hfilled⟩
    · exact absurd hbusy (Nat.lt_irrefl 0)
    · refine Or.inr ⟨⟨hstocked.unpublished, hstocked.walked, hstocked.visible, ?_,
        hstocked.accepted⟩, hfilled⟩
      have hcount := hstocked.count
      simp only [Ring.completed, CompletionQueue.post, List.length_append, List.length_singleton]
      change _ = quota s
      omega
  · rw [hload]
    exact hkept.paid
  · have hdue := hkept.due
    change Due s.rounds (quota s) s.pc k (ring.completed result)
    cases hpc : s.pc with
    | waiting j => exact fun _ => Or.inr harrived
    | draining j =>
      rw [hpc] at hdue
      rcases hdue with hround | hlate
      · rw [← hload] at hround
        exact Or.inl hround
      · exact Or.inr ⟨hlate.1, harrived⟩
    | _ =>
      rw [hpc] at hdue
      exact hdue

theorem inv_step {t : State} {event : Event} (hs : Inv s) (h : step s event = some t) : Inv t := by
  cases step_sound h with
  | filled hpc hk => exact inv_fill hs hpc hk
  | submitted hpc hk hcount => exact inv_submit hs hpc hk hcount
  | waited hpc hk hcount hwoken => exact inv_waited hs hpc hk hcount hwoken
  | interrupted => exact hs
  | drained hpc hk => exact inv_drain hs hpc hk
  | allFilled hpc =>
    intro j other hj
    have hlt := (List.getElem?_eq_some_iff.mp hj).1
    have hstocked := (hs j other hj).stocked
    rw [hpc] at hstocked
    rcases hstocked with ⟨-, hun⟩ | ⟨hstocked, -⟩
    · exact absurd hun (Nat.not_le_of_lt hlt)
    · exact ⟨Or.inr ⟨hstocked, trivial⟩, (hs j other hj).paid, fun hfalse => by omega⟩
  | allWaited hpc =>
    intro j other hj
    have hlt := (List.getElem?_eq_some_iff.mp hj).1
    have hdue := (hs j other hj).due
    have hstocked := (hs j other hj).stocked
    rw [hpc] at hdue hstocked
    exact ⟨hstocked, (hs j other hj).paid, (hdue hlt).imp_right fun hlate => ⟨by omega, hlate⟩⟩
  | allDrained hpc =>
    intro j other hj
    have hlt := (List.getElem?_eq_some_iff.mp hj).1
    have hdue := (hs j other hj).due
    have hstocked := (hs j other hj).stocked
    rw [hpc] at hdue hstocked
    rcases hdue with hpaid | ⟨hle, -⟩
    · exact ⟨hstocked, hpaid, fun hfalse => by omega⟩
    · exact absurd hlt (Nat.not_lt_of_le hle)
  | failed =>
    intro j other hj
    refine ⟨(hs j other hj).stocked.imp (And.imp_right fun _ => trivial)
      (And.imp_right fun _ => trivial), (hs j other hj).paid, trivial⟩
  | completed hk hbusy => exact inv_completed hs hk hbusy

end Steps

theorem inv_of_reachable {sqes numRings : Nat} {s : State}
    (h : Reachable step (State.init sqes numRings) s) : Inv s :=
  h.invariant Inv (inv_init sqes numRings) fun _ _ _ _ hs hstep => inv_step hs hstep

theorem options_step {s t : State} {event : Event} (h : step s event = some t) :
    t.numSqes = s.numSqes ∧ t.rings.length = s.rings.length := by
  cases step_sound h with
  | @filled k ring =>
    unfold State.fill
    cases fillSq ring.sq s.numSqes with
    | none => exact ⟨rfl, rfl⟩
    | some sq => exact ⟨rfl, List.length_set⟩
  | @drained k ring =>
    unfold State.drain
    cases drainCq ring.cq with
    | none => exact ⟨rfl, rfl⟩
    | some cq => exact ⟨rfl, List.length_set⟩
  | submitted | waited | completed => exact ⟨rfl, List.length_set⟩
  | _ => exact ⟨rfl, rfl⟩

theorem options_kept {sqes numRings : Nat} {s : State}
    (h : Reachable step (State.init sqes numRings) s) :
    quota s = min (if sqes > 0 then sqes else maxSqes) maxSqes ∧ s.rings.length = numRings := by
  apply h.invariant fun s => quota s = min (if sqes > 0 then sqes else maxSqes) maxSqes ∧
    s.rings.length = numRings
  · exact ⟨rfl, by simp [State.init]⟩
  · rintro s event t _ ⟨hquota, hrings⟩ hstep
    rcases options_step hstep with ⟨hsqes, hlength⟩
    exact ⟨by rw [quota, hsqes]; exact hquota, hlength.trans hrings⟩

/-- Where the requests of a ring are: each ring gets as many as were asked for,
or as fit, and from then on they are in its submission queue, in the kernel, in
its completion queue or drained, with a result that was expected. -/
theorem accounted {sqes numRings : Nat} {s : State}
    (h : Reachable step (State.init sqes numRings) s) {ring : Ring} (hring : ring ∈ s.rings) :
    ring = createRing ∨
      ring.sq.published.length + ring.inflight + ring.cq.arrived.length + ring.drained.length =
          min (if sqes > 0 then sqes else maxSqes) maxSqes ∧
        ∀ result ∈ ring.drained, result = 1 ∨ result = -eintr := by
  rcases List.mem_iff_getElem?.mp hring with ⟨k, hk⟩
  rcases (inv_of_reachable h k ring hk).stocked with ⟨hnew, -⟩ | ⟨hstocked, -⟩
  · exact Or.inl hnew
  · right
    rw [← (options_kept h).1]
    refine ⟨hstocked.count, fun result hmem => ?_⟩
    simpa [accepted] using hstocked.accepted result hmem

/-- There are no more rounds than the requests of any one ring can pay for. -/
theorem rounds_le {sqes numRings : Nat} {s : State}
    (h : Reachable step (State.init sqes numRings) s) (hrings : 0 < numRings) :
    s.rounds ≤ 2 * min (if sqes > 0 then sqes else maxSqes) maxSqes := by
  rcases options_kept h with ⟨hquota, hlength⟩
  have hfirst : s.rings[0]? = some s.rings[0] := List.getElem?_eq_getElem (by omega)
  have hpaid := (inv_of_reachable h 0 _ hfirst).paid
  rw [← hquota]
  omega

def oneRound : List Event :=
  [.fill, .submit 1, .fill, .submit 0, .proceed, .complete 0 1, .waited 0, .interrupted,
    .waited 1, .proceed, .complete 1 (-4), .drain, .drain, .proceed]

theorem accounted_one_round : ∃ s ring, Reachable step (State.init 1 2) s ∧ ring ∈ s.rings ∧
    ring.drained = [-4] ∧ (ring = createRing ∨
      ring.sq.published.length + ring.inflight + ring.cq.arrived.length + ring.drained.length = 1 ∧
        ∀ result ∈ ring.drained, result = 1 ∨ result = -eintr) := by
  have hview : (run step (State.init 1 2) oneRound).map
      (fun s => s.rings.map Ring.drained) = some [[1], [-4]] := by decide +kernel
  rcases Reachable.of_view hview with ⟨s, hreach, hdrained⟩
  have hmem : [-4] ∈ s.rings.map Ring.drained := by simp [hdrained]
  rcases List.mem_map.mp hmem with ⟨ring, hring, hresults⟩
  exact ⟨s, ring, hreach, hring, hresults, accounted hreach hring⟩

theorem rounds_le_one_round : ∃ s, Reachable step (State.init 1 2) s ∧ s.rounds = 1 ∧
    s.rounds ≤ 2 := by
  have hview : (run step (State.init 1 2) oneRound).map (fun s => s.rounds) = some 1 := by
    decide +kernel
  rcases Reachable.of_view hview with ⟨s, hreach, hrounds⟩
  exact ⟨s, hreach, hrounds, rounds_le hreach (by decide)⟩

end IoWrapper.UdpPool.Rounds
