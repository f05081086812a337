import IoWrapper.Core.Machine

/-! A process that makes its calls one after the other, to a kernel that others use too. It can
make a call itself, or go through a ring: then it queues an entry, submits it, waits for a
completion and takes the first one for the answer. As long as no wait fails, the two come to
the same: the ring holds the one call that is under way, and is empty otherwise. -/
namespace IoWrapper.Core.Calls
open Core.Machine

variable {κ ρ σ ω δ : Type}

/-- The call that a process makes next, if it has not ended, and how it goes on. -/
structure Process (κ ρ σ : Type) where
  call : σ → Option κ
  resume : σ → ρ → σ

/-- Which answers a call can have, and what else can happen to the kernel. -/
structure Kernel (κ ρ ω δ : Type) where
  answer : ω → κ → ρ → Option ω
  outside : ω → δ → Option ω

def Kernel.only (K : Kernel κ ρ ω δ) (can : κ → ρ → Bool) : Kernel κ ρ ω δ where
  answer w c r := if can c r then K.answer w c r else none
  outside := K.outside

inductive Act (ρ δ : Type) where
  | call (r : ρ)
  | outside (d : δ)
deriving DecidableEq

def direct (P : Process κ ρ σ) (K : Kernel κ ρ ω δ) (s : ω × σ) : Act ρ δ → Option (ω × σ)
  | .call r => (P.call s.2).bind fun c => (K.answer s.1 c r).map fun w => (w, P.resume s.2 r)
  | .outside d => (K.outside s.1 d).map fun w => (w, s.2)

inductive Phase where
  | ready
  | queued
  | waiting
  | crashed
deriving DecidableEq

structure Ringed (κ ρ σ ω : Type) where
  kernel : ω
  process : σ
  sq : List κ
  inflight : List κ
  cq : List (κ × ρ)
  phase : Phase

def idle (kernel : ω) (process : σ) : Ringed κ ρ σ ω := ⟨kernel, process, [], [], [], .ready⟩

inductive RingAct (ρ δ : Type) where
  | call (r : ρ)
  | queue
  | submit (count : Nat)
  | complete (i : Nat) (r : ρ)
  | reap
  | waitFails
  | outside (d : δ)
deriving DecidableEq

/-- The calls for which `via` holds go through the ring. After a failed wait the process goes on
as `failed` says, or has no completion to look at and crashes; the entry stays in the ring. -/
def ringed (P : Process κ ρ σ) (K : Kernel κ ρ ω δ) (via : κ → Bool) (failed : σ → Option σ)
    (s : Ringed κ ρ σ ω) : RingAct ρ δ → Option (Ringed κ ρ σ ω)
  | .call r =>
    (P.call s.process).bind fun c =>
      if s.phase = .ready ∧ via c = false then
        (K.answer s.kernel c r).map fun w =>
          { s with kernel := w, process := P.resume s.process r }
      else none
  | .queue =>
    (P.call s.process).bind fun c =>
      if s.phase = .ready ∧ via c = true then some { s with sq := s.sq ++ [c], phase := .queued }
      else none
  | .submit count =>
    if s.phase = .queued then
      some { s with
        sq := s.sq.drop count
        inflight := s.inflight ++ s.sq.take count
        phase := .waiting }
    else none
  | .complete i r =>
    s.inflight[i]?.bind fun c => (K.answer s.kernel c r).map fun w =>
      { s with kernel := w, inflight := s.inflight.eraseIdx i, cq := s.cq ++ [(c, r)] }
  | .reap =>
    s.cq.head?.bind fun (_, r) =>
      if s.phase = .waiting then
        some { s with process := P.resume s.process r, cq := s.cq.tail, phase := .ready }
      else none
  | .waitFails =>
    if s.phase = .waiting then
      match failed s.process with
      | some p => some { s with process := p, phase := .ready }
      | none => some { s with phase := .crashed }
    else none
  | .outside d => (K.outside s.kernel d).map fun w => { s with kernel := w }

def Patient (_ : Ringed κ ρ σ ω) (act : RingAct ρ δ) : Prop :=
  match act with
  | .waitFails => False
  | _ => True

instance (s : Ringed κ ρ σ ω) : (act : RingAct ρ δ) → Decidable (Patient s act)
  | .waitFails => inferInstanceAs (Decidable False)
  | .call _ | .queue | .submit _ | .complete .. | .reap | .outside _ =>
    inferInstanceAs (Decidable True)

def Within (P : Process κ ρ σ) (can : κ → ρ → Bool) (s : Ringed κ ρ σ ω) (act : RingAct ρ δ) :
    Prop :=
  match act with
  | .call r => ∀ c ∈ P.call s.process, can c r
  | .complete i r => ∀ c ∈ s.inflight[i]?, can c r
  | _ => True

instance (P : Process κ ρ σ) (can : κ → ρ → Bool) (s : Ringed κ ρ σ ω) :
    (act : RingAct ρ δ) → Decidable (Within P can s act)
  | .call r => inferInstanceAs (Decidable (∀ c ∈ P.call s.process, can c r))
  | .complete i r => inferInstanceAs (Decidable (∀ c ∈ s.inflight[i]?, can c r))
  | .queue | .submit _ | .reap | .waitFails | .outside _ => inferInstanceAs (Decidable True)

inductive RingStep (P : Process κ ρ σ) (K : Kernel κ ρ ω δ) (via : κ → Bool)
    (failed : σ → Option σ) (s : Ringed κ ρ σ ω) : RingAct ρ δ → Ringed κ ρ σ ω → Prop where
  | called {c : κ} {r : ρ} {w : ω} (hphase : s.phase = .ready) (hcall : P.call s.process = some c)
      (hvia : via c = false) (hanswer : K.answer s.kernel c r = some w) :
      RingStep P K via failed s (.call r)
        { s with kernel := w, process := P.resume s.process r }
  | queued {c : κ} (hphase : s.phase = .ready) (hcall : P.call s.process = some c)
      (hvia : via c = true) :
      RingStep P K via failed s .queue { s with sq := s.sq ++ [c], phase := .queued }
  | submitted {count : Nat} (hphase : s.phase = .queued) :
      RingStep P K via failed s (.submit count)
        { s with
          sq := s.sq.drop count
          inflight := s.inflight ++ s.sq.take count
          phase := .waiting }
  | completed {i : Nat} {c : κ} {r : ρ} {w : ω} (hcall : s.inflight[i]? = some c)
      (hanswer : K.answer s.kernel c r = some w) :
      RingStep P K via failed s (.complete i r)
        { s with kernel := w, inflight := s.inflight.eraseIdx i, cq := s.cq ++ [(c, r)] }
  | reaped {c : κ} {r : ρ} {rest : List (κ × ρ)} (hphase : s.phase = .waiting)
      (hcq : s.cq = (c, r) :: rest) :
      RingStep P K via failed s .reap
        { s with process := P.resume s.process r, cq := rest, phase := .ready }
  | wentOn {p : σ} (hphase : s.phase = .waiting) (hfailed : failed s.process = some p) :
      RingStep P K via failed s .waitFails { s with process := p, phase := .ready }
  | crashed (hphase : s.phase = .waiting) :
      RingStep P K via failed s .waitFails { s with phase := .crashed }
  | outside {d : δ} {w : ω} (houtside : K.outside s.kernel d = some w) :
      RingStep P K via failed s (.outside d) { s with kernel := w }

section Steps

variable {P : Process κ ρ σ} {K : Kernel κ ρ ω δ} {via : κ → Bool} {failed : σ → Option σ}
  {s t : Ringed κ ρ σ ω}

theorem ringed_sound {act : RingAct ρ δ} (h : ringed P K via failed s act = some t) :
    RingStep P K via failed s act t := by
  cases act with
  | call r =>
    rcases Option.bind_eq_some_iff.mp h with ⟨c, hcall, h⟩
    rcases Option.ite_none_right_eq_some.mp h with ⟨⟨hphase, hvia⟩, h⟩
    rcases Option.map_eq_some_iff.mp h with ⟨w, hanswer, rfl⟩
    exact .called hphase hcall hvia hanswer
  | queue =>
    rcases Option.bind_eq_some_iff.mp h with ⟨c, hcall, h⟩
    rcases Option.ite_none_right_eq_some.mp h with ⟨⟨hphase, hvia⟩, h⟩
    cases h
    exact .queued hphase hcall hvia
  | submit count =>
    rcases Option.ite_none_right_eq_some.mp h with ⟨hphase, h⟩
    cases h
    exact .submitted hphase
  | complete i r =>
    rcases Option.bind_eq_some_iff.mp h with ⟨c, hcall, h⟩
    rcases Option.map_eq_some_iff.mp h with ⟨w, hanswer, rfl⟩
    exact .completed hcall hanswer
  | reap =>
    rcases Option.bind_eq_some_iff.mp h with ⟨⟨c, r⟩, hhead, h⟩
    rcases Option.ite_none_right_eq_some.mp h with ⟨hphase, h⟩
    rcases List.head?_eq_some_iff.mp hhead with ⟨rest, hcq⟩
    cases h
    rw [hcq, List.tail_cons]
    exact .reaped hphase hcq
  | waitFails =>
    rcases Option.ite_none_right_eq_some.mp h with ⟨hphase, h⟩
    cases hfailed : failed s.process with
    | some p =>
      rw [hfailed] at h
      cases h
      exact .wentOn hphase hfailed
    | none =>
      rw [hfailed] at h
      cases h
      exact .crashed hphase
  | outside d =>
    rcases Option.map_eq_some_iff.mp h with ⟨w, houtside, rfl⟩
    exact .outside houtside

theorem restrict_within (can : κ → ρ → Bool) :
    restrict (Within P can) (ringed P K via failed) = ringed P (K.only can) via failed := by
  funext s act
  cases act with
  | call r =>
    cases hcall : P.call s.process with
    | none => simp [restrict, ringed, hcall]
    | some c =>
      have hwithin : Within P can s (.call r : RingAct ρ δ) ↔ can c r := by simp [Within, hcall]
      simp only [restrict, hwithin, ringed, hcall, Kernel.only]
      cases hcan : can c r <;> simp [hcan]
  | complete i r =>
    cases hcall : s.inflight[i]? with
    | none => simp [restrict, ringed, hcall]
    | some c =>
      have hwithin : Within P can s (.complete i r : RingAct ρ δ) ↔ can c r := by
        simp [Within, hcall]
      simp only [restrict, hwithin, ringed, hcall, Kernel.only]
      cases hcan : can c r <;> simp [hcan]
  | queue | submit | reap | waitFails | outside => exact if_pos trivial

end Steps

/-- What the ring holds if no wait has failed: the call that is under way. -/
inductive Lone (P : Process κ ρ σ) (s : Ringed κ ρ σ ω) : Prop where
  | ready (hphase : s.phase = .ready) (hsq : s.sq = []) (hinflight : s.inflight = [])
      (hcq : s.cq = [])
  | queued {c : κ} (hphase : s.phase = .queued) (hcall : P.call s.process = some c)
      (hsq : s.sq = [c]) (hinflight : s.inflight = []) (hcq : s.cq = [])
  | unsubmitted {c : κ} (hphase : s.phase = .waiting) (hsq : s.sq = [c])
      (hinflight : s.inflight = []) (hcq : s.cq = [])
  | issued {c : κ} (hphase : s.phase = .waiting) (hcall : P.call s.process = some c)
      (hsq : s.sq = []) (hinflight : s.inflight = [c]) (hcq : s.cq = [])
  | completed {c : κ} {r : ρ} (hphase : s.phase = .waiting) (hsq : s.sq = [])
      (hinflight : s.inflight = []) (hcq : s.cq = [(c, r)])

def caughtUp (P : Process κ ρ σ) (s : Ringed κ ρ σ ω) : σ :=
  s.cq.foldl (fun p answered => P.resume p answered.2) s.process

section Agreement

variable {P : Process κ ρ σ} {K : Kernel κ ρ ω δ} {via : κ → Bool} {failed : σ → Option σ}
  {s t : Ringed κ ρ σ ω} {w w' : ω} {p p' : σ}

theorem caughtUp_of_nil (h : s.cq = []) : caughtUp P s = s.process := by
  rw [caughtUp, h]
  rfl

theorem Lone.of_ready (h : Lone P s) (hphase : s.phase = .ready) :
    s.sq = [] ∧ s.inflight = [] ∧ s.cq = [] := by
  cases h with
  | ready _ hsq hinflight hcq => exact ⟨hsq, hinflight, hcq⟩
  | queued hother | unsubmitted hother | issued hother | completed hother =>
    rw [hphase] at hother
    cases hother

theorem Lone.of_queued (h : Lone P s) (hphase : s.phase = .queued) :
    ∃ c, P.call s.process = some c ∧ s.sq = [c] ∧ s.inflight = [] ∧ s.cq = [] := by
  cases h with
  | queued _ hcall hsq hinflight hcq => exact ⟨_, hcall, hsq, hinflight, hcq⟩
  | ready hother | unsubmitted hother | issued hother | completed hother =>
    rw [hphase] at hother
    cases hother

theorem Lone.of_inflight {i : Nat} {c : κ} (h : Lone P s) (hcall : s.inflight[i]? = some c) :
    s.phase = .waiting ∧ P.call s.process = some c ∧ s.sq = [] ∧ s.inflight = [c] ∧ i = 0 ∧
      s.cq = [] := by
  cases h with
  | issued hphase hown hsq hinflight hcq =>
    rw [hinflight, List.getElem?_singleton] at hcall
    split at hcall
    · rename_i hi
      cases hcall
      exact ⟨hphase, hown, hsq, hinflight, hi, hcq⟩
    · cases hcall
  | ready _ _ hinflight | queued _ _ _ hinflight | unsubmitted _ _ hinflight
  | completed _ _ hinflight =>
    rw [hinflight] at hcall
    cases hcall

theorem Lone.of_cq {answered : κ × ρ} {rest : List (κ × ρ)} (h : Lone P s)
    (hcq : s.cq = answered :: rest) : s.sq = [] ∧ s.inflight = [] ∧ rest = [] := by
  cases h with
  | completed _ hsq hinflight hone =>
    rw [hone] at hcq
    exact ⟨hsq, hinflight, (List.cons.inj hcq).2.symm⟩
  | ready _ _ _ hnone | queued _ _ _ _ hnone | unsubmitted _ _ _ hnone | issued _ _ _ _ hnone =>
    rw [hnone] at hcq
    cases hcq

theorem Lone.length_le_one (h : Lone P s) :
    s.sq.length + s.inflight.length + s.cq.length ≤ 1 := by
  cases h with
  | ready _ hsq hinflight hcq | queued _ _ hsq hinflight hcq | unsubmitted _ hsq hinflight hcq
  | issued _ _ hsq hinflight hcq | completed _ hsq hinflight hcq => simp [hsq, hinflight, hcq]

theorem Lone.submit (h : Lone P s) (hphase : s.phase = .queued) (count : Nat) :
    Lone P { s with
      sq := s.sq.drop count
      inflight := s.inflight ++ s.sq.take count
      phase := .waiting } := by
  rcases h.of_queued hphase with ⟨c, hcall, hsq, hinflight, hcq⟩
  cases count with
  | zero => exact .unsubmitted rfl hsq (by simp [hinflight]) hcq
  | succ count => exact .issued rfl hcall (by simp [hsq]) (by simp [hsq, hinflight]) hcq

/-- One step with the ring is one step or none of the process that makes its calls itself. -/
theorem Lone.step {act : RingAct ρ δ} (h : Lone P s) (hpatient : Patient s act)
    (hstep : ringed P K via failed s act = some t) :
    Lone P t ∧ ((t.kernel, caughtUp P t) = (s.kernel, caughtUp P s) ∨
      ∃ a, direct P K (s.kernel, caughtUp P s) a = some (t.kernel, caughtUp P t)) := by
  cases ringed_sound hstep with
  | @called c r w hphase hcall hvia hanswer =>
    rcases h.of_ready hphase with ⟨hsq, hinflight, hcq⟩
    refine ⟨.ready hphase hsq hinflight hcq, Or.inr ⟨.call r, ?_⟩⟩
    rw [caughtUp_of_nil hcq]
    simp [direct, caughtUp, hcall, hanswer, hcq]
  | queued hphase hcall hvia =>
    rcases h.of_ready hphase with ⟨hsq, hinflight, hcq⟩
    exact ⟨.queued rfl hcall (by simp [hsq]) hinflight hcq, Or.inl rfl⟩
  | @submitted count hphase => exact ⟨h.submit hphase count, Or.inl rfl⟩
  | @completed i c r w hcall hanswer =>
    rcases h.of_inflight hcall with ⟨hphase, hown, hsq, hinflight, rfl, hcq⟩
    have hanswered : s.cq ++ [(c, r)] = [(c, r)] := by rw [hcq, List.nil_append]
    refine ⟨.completed hphase hsq (by simp [hinflight]) hanswered, Or.inr ⟨.call r, ?_⟩⟩
    rw [caughtUp_of_nil hcq]
    simp [direct, caughtUp, hown, hanswer, hcq]
  | reaped hphase hcq =>
    rcases h.of_cq hcq with ⟨hsq, hinflight, rfl⟩
    refine ⟨.ready rfl hsq hinflight rfl, Or.inl ?_⟩
    simp [caughtUp, hcq]
  | wentOn => exact absurd hpatient id
  | crashed => exact absurd hpatient id
  | @outside d w houtside =>
    refine ⟨?_, Or.inr ⟨.outside d, by simp [direct, houtside, caughtUp]⟩⟩
    cases h with
    | ready hphase hsq hinflight hcq => exact .ready hphase hsq hinflight hcq
    | queued hphase hcall hsq hinflight hcq => exact .queued hphase hcall hsq hinflight hcq
    | unsubmitted hphase hsq hinflight hcq => exact .unsubmitted hphase hsq hinflight hcq
    | issued hphase hcall hsq hinflight hcq => exact .issued hphase hcall hsq hinflight hcq
    | completed hphase hsq hinflight hcq => exact .completed hphase hsq hinflight hcq

theorem lone_of_reachable
    (h : Reachable (restrict Patient (ringed P K via failed)) (idle w p) s) :
    Lone P s ∧ Reachable (direct P K) (w, p) (s.kernel, caughtUp P s) := by
  apply h.invariant fun s => Lone P s ∧ Reachable (direct P K) (w, p) (s.kernel, caughtUp P s)
  · exact ⟨.ready rfl rfl rfl rfl, Reachable.refl _ _⟩
  · rintro s act t _ ⟨hs, hreach⟩ hstep
    rcases restrict_eq_some.mp hstep with ⟨hpatient, hnext⟩
    rcases hs.step hpatient hnext with ⟨ht, hsame | ⟨a, ha⟩⟩
    · exact ⟨ht, hsame ▸ hreach⟩
    · exact ⟨ht, hreach.tail ha⟩

theorem ringed_call {c : κ} {r : ρ} (hcall : P.call p = some c) (hvia : via c = true)
    (hanswer : K.answer w c r = some w') :
    Reachable (restrict Patient (ringed P K via failed)) (idle w p) (idle w' (P.resume p r)) :=
  ⟨[.queue, .submit 1, .complete 0 r, .reap], by
    simp [run_cons, restrict, Patient, ringed, idle, hcall, hvia, hanswer]⟩

theorem ringed_of_direct (h : Reachable (direct P K) (w, p) (w', p')) :
    Reachable (restrict Patient (ringed P K via failed)) (idle w p) (idle w' p') := by
  apply h.invariant fun t =>
    Reachable (restrict Patient (ringed P K via failed)) (idle w p) (idle t.1 t.2)
  · exact Reachable.refl _ _
  · rintro ⟨v, q⟩ act t _ hs hstep
    cases act with
    | call r =>
      rcases Option.bind_eq_some_iff.mp hstep with ⟨c, hcall, hnext⟩
      rcases Option.map_eq_some_iff.mp hnext with ⟨v', hanswer, rfl⟩
      cases hvia : via c with
      | true => exact hs.trans (ringed_call hcall hvia hanswer)
      | false =>
        have hmove : restrict Patient (ringed P K via failed) (idle v q) (.call r) =
            some (idle v' (P.resume q r)) := by
          dsimp only at hcall hanswer
          simp [restrict, Patient, ringed, idle, hcall, hvia, hanswer]
        exact hs.tail hmove
    | outside d =>
      rcases Option.map_eq_some_iff.mp hstep with ⟨v', houtside, rfl⟩
      have hmove : restrict Patient (ringed P K via failed) (idle v q) (.outside d) =
          some (idle v' q) := by
        dsimp only at houtside
        simp [restrict, Patient, ringed, idle, houtside]
      exact hs.tail hmove

/-- A process that goes through the ring comes to the same between two calls as one that makes
its calls itself. -/
theorem ringed_iff_direct :
    Reachable (restrict Patient (ringed P K via failed)) (idle w p) (idle w' p') ↔
      Reachable (direct P K) (w, p) (w', p') :=
  ⟨fun h => (lone_of_reachable h).2, ringed_of_direct⟩

end Agreement

end IoWrapper.Core.Calls
