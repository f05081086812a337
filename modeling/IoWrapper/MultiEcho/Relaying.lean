import IoWrapper.Core.Relay
import IoWrapper.MultiEcho.Buffers

/-! The bytes on the connections of all the rings. A connection belongs to the loop that has
accepted it, and has one operation at a time; so whatever the other loops do, its transfers are
those of a relay, as long as no loop starts while a receive is pending. -/
namespace IoWrapper.MultiEcho.Relaying
open Core.Collections Core.Machine Core.Traffic Core.Relay GoEcho.Operations Server Registry Buffers

/-- The loops, with the transfers on the connection that a descriptor is for. -/
structure Sys (n : Nat) where
  server : State n
  log : Nat → List (Transfer UInt8)

def Sys.init (n lfd : Nat) : Sys n := ⟨State.init n lfd, fun _ => []⟩

/-- A receive or a send does not move more bytes than it was asked to. -/
def Moves (res : Int) : Op → Prop
  | .recv _ _ len | .send _ _ len => res ≤ len
  | .accept _ | .close _ => True

instance (res : Int) : (op : Op) → Decidable (Moves res op)
  | .recv _ _ len | .send _ _ len => inferInstanceAs (Decidable (res ≤ len))
  | .accept _ | .close _ => inferInstanceAs (Decidable True)

/-- The transfers after an operation has completed. A new connection has none. -/
def transfer (memory : Buf → List UInt8) (res : Int) (data : List UInt8)
    (log : Nat → List (Transfer UInt8)) : Op → Nat → List (Transfer UInt8)
  | .accept _ => if 0 ≤ res then Function.update log res.toNat [] else log
  | .recv fd _ _ => if 0 < res then Function.update log fd (log fd ++ [.took data]) else log
  | .send fd buf _ => Function.update log fd (log fd ++ [.gave ((memory buf).take res.toNat)])
  | .close _ => log

def step {n : Nat} (s : Sys n) (event : Event n) : Option (Sys n) :=
  match event.action with
  | .complete i res data =>
    (s.server.loops event.id).ring.inflight[i]?.bind fun sqe =>
      if Moves res sqe.op then
        (Server.step s.server event).map fun server =>
          ⟨server, transfer s.server.shared.memory res data s.log sqe.op⟩
      else none
  | .start _ | .submit _ | .submitError _ | .waitError | .handle _ =>
    (Server.step s.server event).map fun server => { s with server := server }

inductive Step {n : Nat} (s : Sys n) (event : Event n) : Sys n → Prop where
  | completed {i : Nat} {res : Int} {data : List UInt8} {sqe : Sqe} {server : State n}
      (haction : event.action = .complete i res data)
      (hsqe : (s.server.loops event.id).ring.inflight[i]? = some sqe) (hmoves : Moves res sqe.op)
      (hserver : Server.step s.server event = some server) :
      Step s event ⟨server, transfer s.server.shared.memory res data s.log sqe.op⟩
  | other {server : State n} (haction : ∀ i res data, event.action ≠ .complete i res data)
      (hserver : Server.step s.server event = some server) :
      Step s event { s with server := server }

theorem step_sound {n : Nat} {s t : Sys n} {event : Event n} (h : step s event = some t) :
    Step s event t := by
  unfold step at h
  cases haction : event.action with
  | complete i res data =>
    rw [haction] at h
    rcases Option.bind_eq_some_iff.mp h with ⟨sqe, hsqe, h⟩
    rcases Option.ite_none_right_eq_some.mp h with ⟨hmoves, h⟩
    rcases Option.map_eq_some_iff.mp h with ⟨server, hserver, rfl⟩
    exact .completed haction hsqe hmoves hserver
  | start | submit | submitError | waitError | handle =>
    rw [haction] at h
    rcases Option.map_eq_some_iff.mp h with ⟨server, hserver, rfl⟩
    exact .other (by simp [haction]) hserver

section Owed

/-- A connection that an operation or a completion is for, and whether what was received last
is still to be sent. -/
structure Owed where
  fd : Nat
  due : Bool

def opOwes : Op → Option Owed
  | .recv fd _ _ => some ⟨fd, false⟩
  | .send fd _ _ => some ⟨fd, true⟩
  | .accept _ | .close _ => none

def cqeOwes (cqe : Cqe) : Option Owed :=
  match cqe.entry.op with
  | .accept _ => if 0 ≤ cqe.res then some ⟨cqe.res.toNat, false⟩ else none
  | .recv fd _ _ => some ⟨fd, decide (0 < cqe.res)⟩
  | .send fd _ _ => some ⟨fd, false⟩
  | .close _ => none

def owes (ring : IoRing Sqe) : List Owed :=
  ring.uncompleted.filterMap (fun sqe => opOwes sqe.op) ++ ring.cq.filterMap cqeOwes

def chunk (sh : Shared) (owed : Owed) : Option (List UInt8) :=
  if owed.due then (sh.stored owed.fd).map Prod.snd else none

/-- The relay of a connection holds what is still to be sent. -/
def Filed (sh : Shared) (log : Nat → List (Transfer UInt8)) (ring : IoRing Sqe) : Prop :=
  ∀ owed ∈ owes ring, Makes (log owed.fd) (chunk sh owed)

variable {ring : IoRing Sqe} {owed : Owed} {sh sh' : Shared}
  {log log' : Nat → List (Transfer UInt8)}

theorem mem_owes : owed ∈ owes ring ↔
    (∃ sqe ∈ ring.uncompleted, opOwes sqe.op = some owed) ∨
      ∃ cqe ∈ ring.cq, cqeOwes cqe = some owed := by
  rw [owes, List.mem_append, List.mem_filterMap, List.mem_filterMap]

theorem opHold_of_owes {op : Op} (h : opOwes op = some owed) :
    ∃ due, opHold op = some ⟨owed.fd, due⟩ := by
  cases op with
  | recv | send =>
    cases h
    exact ⟨_, rfl⟩
  | accept | close => cases h

theorem cqeOwes_fd (cqe : Cqe) : (cqeOwes cqe).map Owed.fd = (cqeHold cqe).map Hold.fd := by
  unfold cqeOwes cqeHold
  cases cqe.entry.op with
  | accept =>
    dsimp only
    split <;> rfl
  | recv | send | close => rfl

theorem cqeHold_of_owes {cqe : Cqe} (h : cqeOwes cqe = some owed) :
    ∃ due, cqeHold cqe = some ⟨owed.fd, due⟩ := by
  have hfd := cqeOwes_fd cqe
  rw [h, Option.map_some] at hfd
  rcases Option.map_eq_some_iff.mp hfd.symm with ⟨hold, hhold, heq⟩
  exact ⟨hold.due, by rw [hhold, ← heq]⟩

theorem hold_of_owes (h : owed ∈ owes ring) : ∃ due, (⟨owed.fd, due⟩ : Hold) ∈ holds ring := by
  rcases mem_owes.mp h with ⟨sqe, hsqe, hop⟩ | ⟨cqe, hcqe, hop⟩
  · rcases opHold_of_owes hop with ⟨due, hhold⟩
    exact ⟨due, List.mem_append_left _ (List.mem_filterMap.mpr ⟨sqe, hsqe, hhold⟩)⟩
  · rcases cqeHold_of_owes hop with ⟨due, hhold⟩
    exact ⟨due, List.mem_append_right _ (List.mem_filterMap.mpr ⟨cqe, hcqe, hhold⟩)⟩

theorem Filed.frame {ring' : IoRing Sqe} (h : Filed sh log ring)
    (hsub : ∀ owed ∈ owes ring', owed ∈ owes ring)
    (hsame : ∀ owed ∈ owes ring', sh'.stored owed.fd = sh.stored owed.fd ∧
      log' owed.fd = log owed.fd) : Filed sh' log' ring' := by
  intro owed howed
  rcases hsame owed howed with ⟨hstored, hlog⟩
  rw [hlog, chunk, hstored]
  exact h owed (hsub owed howed)

theorem owes_complete {i : Nat} {cqe : Cqe} (h : owed ∈ owes (ring.complete i cqe)) :
    cqeOwes cqe = some owed ∨ owed ∈ owes (ring.without i) := by
  rcases mem_owes.mp h with hop | ⟨own, hown, hcqe⟩
  · exact Or.inr (mem_owes.mpr (Or.inl hop))
  · rcases List.mem_append.mp hown with hold | hnew
    · exact Or.inr (mem_owes.mpr (Or.inr ⟨own, hold, hcqe⟩))
    · rw [List.mem_singleton] at hnew
      exact Or.inl (hnew ▸ hcqe)

theorem owes_without {i : Nat} (h : owed ∈ owes (ring.without i)) : owed ∈ owes ring := by
  rcases mem_owes.mp h with ⟨sqe, hsqe, hop⟩ | hcqe
  · refine mem_owes.mpr (Or.inl ⟨sqe, ?_, hop⟩)
    rcases List.mem_append.mp hsqe with hsq | hflight
    · exact List.mem_append_left _ hsq
    · exact List.mem_append_right _ (List.mem_of_mem_eraseIdx hflight)
  · exact mem_owes.mpr (Or.inr hcqe)

theorem holds_complete_without (ring : IoRing Sqe) (i : Nat) (cqe : Cqe) :
    (holds (ring.complete i cqe)).Perm ((cqeHold cqe).toList ++ holds (ring.without i)) := by
  unfold holds
  rw [IoRing.complete_cq, List.filterMap_append, ← List.append_assoc, filterMap_cons_toList,
    List.filterMap_nil, List.append_nil]
  exact List.perm_append_comm

theorem recv_mem_answers {lfd fd : Nat} {op : Op} {res : Int}
    (h : .recv fd ∈ answers lfd res op.request) :
    (∃ own, op = .accept own ∧ 0 ≤ res ∧ fd = res.toNat) ∨ ∃ buf len, op = .send fd buf len := by
  cases op with
  | accept own =>
    by_cases hres : res < 0
    · rw [Op.request, answers_failed hres] at h
      exact absurd h List.not_mem_nil
    · rw [Op.request, answers_accepted (Int.not_lt.mp hres), List.mem_pair,
        Request.recv.injEq] at h
      exact Or.inl ⟨own, rfl, Int.not_lt.mp hres, h.resolve_left (by simp)⟩
  | recv own =>
    by_cases hres : res ≤ 0
    · rw [Op.request, answers_unread hres] at h
      split at h <;> simp at h
    · simp [Op.request, answers_received (Int.not_le.mp hres)] at h
  | send own buf len =>
    cases List.mem_singleton.mp (show Request.recv fd ∈ [Request.recv own] from h)
    exact Or.inr ⟨buf, len, rfl⟩
  | close => exact absurd h List.not_mem_nil

theorem owes_answer {lfd : Nat} {cqe : Cqe} {op : Op}
    (h : op.request ∈ answers lfd cqe.res cqe.entry.op.request) (howes : opOwes op = some owed) :
    cqeOwes cqe = some owed := by
  unfold cqeOwes
  cases op with
  | accept | close => cases howes
  | recv fd =>
    cases howes
    rcases recv_mem_answers h with ⟨own, hentry, hres, rfl⟩ | ⟨buf, len, hentry⟩
    · rw [hentry]
      exact if_pos hres
    · rw [hentry]
  | send fd =>
    cases howes
    rcases send_mem_answers h with ⟨hres, -, buf, size, hentry⟩
    rw [hentry]
    simp only [hres, decide_true]

theorem owes_accepting {lfd userData : Nat}
    (h : owed ∈ owes (ring.push ⟨.accept lfd, userData⟩)) : owed ∈ owes ring := by
  rcases mem_owes.mp h with ⟨sqe, hsqe, hop⟩ | hcqe
  · rcases List.mem_cons.mp ((IoRing.uncompleted_push ring _).mem_iff.mp hsqe) with rfl | hold
    · cases hop
    · exact mem_owes.mpr (Or.inl ⟨sqe, hold, hop⟩)
  · exact mem_owes.mpr (Or.inr hcqe)

theorem owes_submit {count : Nat} (h : owed ∈ owes (ring.submit count)) : owed ∈ owes ring := by
  rcases mem_owes.mp h with ⟨sqe, hsqe, hop⟩ | hcqe
  · exact mem_owes.mpr (Or.inl ⟨sqe, (IoRing.uncompleted_submit ring count).mem_iff.mp hsqe, hop⟩)
  · exact mem_owes.mpr (Or.inr hcqe)

theorem owes_turned {lfd buffs : Nat} {l l' : Loop} {cqe : Cqe} {rest : List Cqe}
    {sqes : List Sqe} (hcq : l.ring.cq = cqe :: rest) (hturned : Turned lfd buffs l cqe sqes l')
    (h : owed ∈ owes l'.ring) : owed ∈ owes l.ring := by
  have hfront : cqe ∈ l.ring.cq := hcq ▸ List.mem_cons_self ..
  rw [hturned.ring] at h
  rcases mem_owes.mp h with ⟨sqe, hsqe, hop⟩ | ⟨own, hown, hcqe⟩
  · rcases List.mem_append.mp ((IoRing.uncompleted_pushAll l.ring sqes).mem_iff.mp hsqe)
      with hnew | hold
    · have hrequest : sqe.op.request ∈ answers lfd cqe.res cqe.entry.op.request := by
        rw [← hturned.requests]
        exact List.mem_map_of_mem hnew
      exact mem_owes.mpr (Or.inr ⟨cqe, hfront, owes_answer hrequest hop⟩)
    · exact mem_owes.mpr (Or.inl ⟨sqe, hold, hop⟩)
  · exact mem_owes.mpr (Or.inr ⟨own, List.mem_of_mem_tail hown, hcqe⟩)

end Owed

section Completion

variable {id i : Nat} {ring : IoRing Sqe} {sqe : Sqe} {res : Int} {data : List UInt8} {sh : Shared}
  {log : Nat → List (Transfer UInt8)} {fd : Nat} {owed : Owed}

theorem transfer_of_ne (id : Nat) (data : List UInt8)
    (hne : ∀ hold ∈ cqeHold ⟨sqe, res⟩, hold.fd ≠ fd) :
    (sh.completed id sqe.op res data).stored fd = sh.stored fd ∧
      transfer sh.memory res data log sqe.op fd = log fd := by
  unfold cqeHold at hne
  dsimp only at hne
  cases hop : sqe.op with
  | accept lfd =>
    rw [hop] at hne
    simp only [Shared.completed, transfer]
    by_cases hres : 0 ≤ res
    · rw [if_pos hres] at hne
      rw [if_pos hres, if_pos hres, Function.update_of_ne (Ne.symm (hne _ rfl))]
      exact ⟨rfl, rfl⟩
    · rw [if_neg hres, if_neg hres]
      exact ⟨rfl, rfl⟩
  | recv own buf len =>
    rw [hop] at hne
    have hfd : fd ≠ own := Ne.symm (hne _ rfl)
    simp only [Shared.completed, transfer]
    by_cases hres : 0 < res
    · rw [if_pos hres, if_pos hres]
      exact ⟨Function.update_of_ne hfd _ _, Function.update_of_ne hfd _ _⟩
    · rw [if_neg hres, if_neg hres]
      exact ⟨rfl, rfl⟩
  | send own buf len =>
    rw [hop] at hne
    exact ⟨rfl, Function.update_of_ne (Ne.symm (hne _ rfl)) _ _⟩
  | close own => exact ⟨rfl, rfl⟩

theorem Filed.sends {buf : Buf} {len : Nat} (h : Filed sh log ring) (hkept : Kept id sh ring)
    (hsqe : sqe ∈ ring.uncompleted) (hop : sqe.op = .send fd buf len) :
    Makes (log fd) (some ((sh.memory buf).take len)) := by
  have hmakes := h ⟨fd, true⟩ (mem_owes.mpr (Or.inl ⟨sqe, hsqe, by rw [hop]; rfl⟩))
  have hhold : (⟨fd, some (buf, len)⟩ : Hold) ∈ holds ring :=
    List.mem_append_left _ (List.mem_filterMap.mpr ⟨sqe, hsqe, by rw [hop]; rfl⟩)
  rcases hkept.fresh _ hhold (buf, len) rfl with ⟨-, chunk, hstored, -, hmemory⟩
  dsimp only at hstored hmemory
  simp only [Relaying.chunk, if_true, hstored, Option.map_some] at hmakes
  rw [hmemory]
  exact hmakes

theorem Filed.recvs {buf : Buf} {len : Nat} (h : Filed sh log ring) (hsqe : sqe ∈ ring.uncompleted)
    (hop : sqe.op = .recv fd buf len) : Makes (log fd) none :=
  h ⟨fd, false⟩ (mem_owes.mpr (Or.inl ⟨sqe, hsqe, by rw [hop]; rfl⟩))

theorem Filed.transferred (h : Filed sh log ring) (hkept : Kept id sh ring)
    (hsqe : sqe ∈ ring.uncompleted) (hmoves : Moves res sqe.op)
    (howed : cqeOwes ⟨sqe, res⟩ = some owed) :
    Makes (transfer sh.memory res data log sqe.op owed.fd)
      (chunk (sh.completed id sqe.op res data) owed) := by
  unfold cqeOwes at howed
  dsimp only at howed
  cases hop : sqe.op with
  | accept lfd =>
    rw [hop] at howed
    rcases Option.ite_none_right_eq_some.mp howed with ⟨hres, howed⟩
    cases howed
    simp only [transfer, if_pos hres, Function.update_self]
    exact makes_nil
  | recv fd buf len =>
    rw [hop] at howed
    cases howed
    have hmakes := h.recvs hsqe hop
    by_cases hres : 0 < res
    · simp only [transfer, chunk, Shared.completed, hres, if_true, decide_true,
        Function.update_self, Option.map_some]
      exact hmakes.took data
    · simp only [transfer, chunk, hres, if_false, decide_false, Bool.false_eq_true]
      exact hmakes
  | send fd buf len =>
    rw [hop] at howed hmoves
    cases howed
    have hle : res ≤ len := hmoves
    simp only [transfer, Function.update_self]
    exact (h.sends hkept hsqe hop).gave (List.take_prefix_take_left (by omega))
  | close fd =>
    rw [hop] at howed
    cases howed

theorem without_apart {sh : Shared} {cqe : Cqe} (h : Kept id sh (ring.complete i cqe))
    (howed : owed ∈ owes (ring.without i)) : ∀ hold ∈ cqeHold cqe, hold.fd ≠ owed.fd := by
  intro hold hhold heq
  rcases hold_of_owes howed with ⟨due, hrest⟩
  have hone := h.one owed.fd
  have hmax := share_le_one id (sh.fds owed.fd)
  have hpos := held_pos hrest
  dsimp only at hpos
  rw [held_perm _ (holds_complete_without ring i cqe), held_append, Option.mem_def.mp hhold,
    held_some, if_pos heq] at hone
  omega

theorem Filed.complete (h : Filed sh log ring) (hkept : Kept id sh ring)
    (hafter : Kept id (sh.completed id sqe.op res data) (ring.complete i ⟨sqe, res⟩))
    (hsqe : ring.inflight[i]? = some sqe) (hmoves : Moves res sqe.op) :
    Filed (sh.completed id sqe.op res data) (transfer sh.memory res data log sqe.op)
      (ring.complete i ⟨sqe, res⟩) := by
  intro owed howed
  rcases owes_complete howed with hnew | hold
  · exact h.transferred hkept (List.mem_append_right _ (List.mem_of_getElem? hsqe)) hmoves hnew
  · rcases transfer_of_ne id data (without_apart hafter hold) with ⟨hstored, hlog⟩
    rw [hlog, chunk, hstored]
    exact h owed (owes_without hold)

theorem Filed.other {other : Nat} {ring' : IoRing Sqe} (h : Filed sh log ring')
    (hkept : Kept other (sh.completed id sqe.op res data) ring') (hne : other ≠ id)
    (hafter : Kept id (sh.completed id sqe.op res data) (ring.complete i ⟨sqe, res⟩)) :
    Filed (sh.completed id sqe.op res data) (transfer sh.memory res data log sqe.op) ring' := by
  refine h.frame (fun _ howed => howed) fun owed howed => ?_
  apply transfer_of_ne id data
  intro hold hhold heq
  rcases hold_of_owes howed with ⟨due, hheld⟩
  have hother := hkept.owned hheld
  have hown := hafter.owned ((holds_complete_without ring i _).mem_iff.mpr
    (List.mem_append_left _ (Option.mem_toList.mpr hhold)))
  rw [heq] at hown
  exact hne (Option.some.inj (hother.symm.trans hown))

end Completion

theorem acts_quiet {id : Nat} {sh sh' : Shared} {l l' : Loop} {action : Action}
    (hregistered : Registered l l.ring.pending) (hact : Acts id sh l action sh' l')
    (hquiet : ∀ i res data, action ≠ .complete i res data) :
    sh'.stored = sh.stored ∧ ∀ owed ∈ owes l'.ring, owed ∈ owes l.ring := by
  cases hact with
  | started hpc hproduce =>
    rcases produce_eq_ok hproduce with ⟨prepared, hprepared, -, rfl⟩
    cases hprepared
    exact ⟨rfl, fun _ => owes_accepting⟩
  | submitted | submitFailed => exact ⟨rfl, fun _ => owes_submit⟩
  | startPanicked | waitFailed | unknown | unsupported | panicked => exact ⟨rfl, fun _ h => h⟩
  | handled hpc hcq hlookup hreact hproduce =>
    rcases turned_of_handled hregistered hcq hlookup hreact hproduce with ⟨sqes, hturned⟩
    exact ⟨rfl, fun _ => owes_turned hcq hturned⟩
  | completed => exact absurd rfl (hquiet _ _ _)

section System

variable {n lfd : Nat} {s t : Sys n} {event : Event n}

def Steady (s : Sys n) (event : Event n) : Prop := Orderly s.server event

instance (s : Sys n) (event : Event n) : Decidable (Steady s event) :=
  inferInstanceAs (Decidable (Orderly ..))

theorem server_step (h : step s event = some t) : Server.step s.server event = some t.server := by
  cases step_sound h with
  | completed _ _ _ hserver => exact hserver
  | other _ hserver => exact hserver

theorem server_reachable (h : Reachable (restrict Steady step) (Sys.init n lfd) s) :
    Reachable (restrict Orderly Server.step) (State.init n lfd) s.server := by
  apply h.component Sys.server
  intro s event t hstep
  rcases restrict_eq_some.mp hstep with ⟨hsteady, hstep⟩
  exact Or.inr ⟨event, restrict_eq_some.mpr ⟨hsteady, server_step hstep⟩⟩

structure Sound (s : Sys n) : Prop where
  filed : ∀ id : Fin n, Filed s.server.shared s.log (s.server.loops id).ring
  made : ∀ fd, ∃ held, Makes (s.log fd) held

theorem Sound.completed {id : Fin n} {i : Nat} {res : Int} {data : List UInt8} {sqe : Sqe}
    {server : State n} (h : Sound s)
    (hkept : ∀ id : Fin n, Kept id s.server.shared (s.server.loops id).ring)
    (hafter : ∀ id : Fin n, Kept id server.shared (server.loops id).ring)
    (hsqe : (s.server.loops id).ring.inflight[i]? = some sqe) (hmoves : Moves res sqe.op)
    (hshared : server.shared = s.server.shared.completed id sqe.op res data)
    (hring : (server.loops id).ring = (s.server.loops id).ring.complete i ⟨sqe, res⟩)
    (hothers : ∀ other, other ≠ id → server.loops other = s.server.loops other) :
    Sound ⟨server, transfer s.server.shared.memory res data s.log sqe.op⟩ := by
  have hown := hafter id
  rw [hshared, hring] at hown
  have hmem : sqe ∈ (s.server.loops id).ring.uncompleted :=
    List.mem_append_right _ (List.mem_of_getElem? hsqe)
  constructor
  case filed =>
    intro other
    by_cases heq : other = id
    · rw [heq, hshared, hring]
      exact (h.filed id).complete (hkept id) hown hsqe hmoves
    · have hother := hafter other
      rw [hothers other heq, hshared] at hother
      rw [hothers other heq, hshared]
      exact (h.filed other).other hother (fun hval => heq (Fin.ext hval)) hown
  case made =>
    intro fd
    dsimp only
    by_cases hfd : (cqeOwes ⟨sqe, res⟩).map Owed.fd = some fd
    · rcases Option.map_eq_some_iff.mp hfd with ⟨owed, howed, rfl⟩
      exact ⟨_, (h.filed id).transferred (hkept id) hmem hmoves howed⟩
    · rw [(transfer_of_ne id data ?_).2]
      · exact h.made fd
      · intro hold hhold heq
        rw [cqeOwes_fd, Option.mem_def.mp hhold, Option.map_some, heq] at hfd
        exact hfd rfl

theorem Sound.step (h : Sound s)
    (hkept : ∀ id : Fin n, Kept id s.server.shared (s.server.loops id).ring)
    (hafter : ∀ id : Fin n, Kept id t.server.shared (t.server.loops id).ring)
    (hregistered : ∀ id : Fin n,
      Registered (s.server.loops id) (s.server.loops id).ring.pending)
    (hstep : step s event = some t) : Sound t := by
  cases step_sound hstep with
  | @completed i res data sqe server haction hsqe hmoves hserver =>
    rcases Server.step_sound hserver with ⟨-, sh, l, hact, rfl⟩
    rw [haction] at hact
    cases hact with
    | @completed _ own _ _ hown =>
      cases hsqe.symm.trans hown
      apply h.completed hkept hafter hsqe hmoves rfl
      · dsimp only
        rw [Function.update_self]
      · exact fun other hne => Function.update_of_ne hne _ _
  | @other server haction hserver =>
    rcases Server.step_sound hserver with ⟨-, sh, l, hact, rfl⟩
    rcases acts_quiet (hregistered event.id) hact haction with ⟨hstored, howes⟩
    refine ⟨fun id => ?_, h.made⟩
    dsimp only
    by_cases heq : id = event.id
    · rw [heq, Function.update_self]
      exact (h.filed event.id).frame howes fun owed _ => ⟨congrFun hstored owed.fd, rfl⟩
    · rw [Function.update_of_ne heq]
      exact (h.filed id).frame (fun _ howed => howed) fun owed _ =>
        ⟨congrFun hstored owed.fd, rfl⟩

theorem sound_of_reachable (h : Reachable (restrict Steady step) (Sys.init n lfd) s) : Sound s := by
  apply h.invariant Sound
  · exact ⟨fun id _ => List.not_mem_nil.elim, fun fd => ⟨none, makes_nil⟩⟩
  · intro s event t hreach hs hstep
    have hserver := server_reachable hreach
    exact hs.step (Buffers.kept_of_reachable hserver)
      (Buffers.kept_of_reachable (server_reachable (hreach.tail hstep)))
      (registered_of_reachable hserver.of_restrict) (restrict_eq_some.mp hstep).2

/-- If no loop starts while a receive is pending, then the transfers of every connection are
those of a relay, whichever loop it belongs to; a receive is under way only when the relay
holds nothing, and a send only of what it holds. -/
theorem rings_relay (h : Reachable (restrict Steady step) (Sys.init n lfd) s) :
    (∀ fd, ∃ held, Makes (s.log fd) held) ∧
      ∀ id, ∀ sqe ∈ (s.server.loops id).ring.uncompleted,
        (∀ fd buf len, sqe.op = .recv fd buf len → Makes (s.log fd) none) ∧
        ∀ fd buf len, sqe.op = .send fd buf len →
          Makes (s.log fd) (some ((s.server.shared.memory buf).take len)) := by
  have hsound := sound_of_reachable h
  refine ⟨hsound.made, fun id sqe hsqe => ⟨?_, ?_⟩⟩
  · exact fun fd buf len => (hsound.filed id).recvs hsqe
  · exact fun fd buf len =>
      (hsound.filed id).sends (Buffers.kept_of_reachable (server_reachable h) id) hsqe

def SentWhole (res : Int) : Op → Prop
  | .send _ _ len => res = len
  | .accept _ | .recv .. | .close _ => True

instance (res : Int) : (op : Op) → Decidable (SentWhole res op)
  | .send _ _ len => inferInstanceAs (Decidable (res = len))
  | .accept _ | .recv .. | .close _ => inferInstanceAs (Decidable True)

def Sends (ring : IoRing Sqe) : Action → Prop
  | .complete i res _ => ∀ sqe ∈ ring.inflight[i]?, SentWhole res sqe.op
  | .start _ | .submit _ | .submitError _ | .waitError | .handle _ => True

instance (ring : IoRing Sqe) : (action : Action) → Decidable (Sends ring action)
  | .complete i _ _ => inferInstanceAs (Decidable (∀ sqe ∈ ring.inflight[i]?, _))
  | .start _ | .submit _ | .submitError _ | .waitError | .handle _ =>
    inferInstanceAs (Decidable True)

def Whole (s : Sys n) (event : Event n) : Prop :=
  Steady s event ∧ Sends (s.server.loops event.id).ring event.action

instance (s : Sys n) (event : Event n) : Decidable (Whole s event) :=
  inferInstanceAs (Decidable (_ ∧ _))

theorem lossless_transfer {id fd : Nat} {ring : IoRing Sqe} {sh : Shared} {sqe : Sqe} {res : Int}
    {data : List UInt8} {log : Nat → List (Transfer UInt8)} (h : ∀ fd, Lossless (log fd))
    (hfiled : Filed sh log ring) (hkept : Kept id sh ring) (hsqe : sqe ∈ ring.uncompleted)
    (hwhole : SentWhole res sqe.op) : Lossless (transfer sh.memory res data log sqe.op fd) := by
  cases hop : sqe.op with
  | accept lfd =>
    simp only [transfer]
    split
    · by_cases heq : fd = res.toNat
      · rw [heq, Function.update_self]
        exact lossless_nil
      · rw [Function.update_of_ne heq]
        exact h fd
    · exact h fd
  | recv own buf len =>
    simp only [transfer]
    split
    · by_cases heq : fd = own
      · rw [heq, Function.update_self]
        exact (h own).took data
      · rw [Function.update_of_ne heq]
        exact h fd
    · exact h fd
  | send own buf len =>
    rw [hop] at hwhole
    have hres : res.toNat = len := by
      rw [show res = len from hwhole, Int.toNat_natCast]
    simp only [transfer]
    by_cases heq : fd = own
    · rw [heq, Function.update_self, hres]
      exact (h own).gave (hfiled.sends hkept hsqe hop)
    · rw [Function.update_of_ne heq]
      exact h fd
  | close own => exact h fd

theorem lossless_of_reachable (h : Reachable (restrict Whole step) (Sys.init n lfd) s) :
    ∀ fd, Lossless (s.log fd) := by
  apply h.invariant fun s => ∀ fd, Lossless (s.log fd)
  · exact fun fd => lossless_nil
  · intro s event t hreach hs hstep fd
    rcases restrict_eq_some.mp hstep with ⟨⟨-, hsends⟩, hstep⟩
    have hsteady : Reachable (restrict Steady step) (Sys.init n lfd) s :=
      hreach.restrict_mono fun _ _ hwhole => hwhole.1
    cases step_sound hstep with
    | @completed i res data sqe server haction hsqe hmoves hserver =>
      rw [haction] at hsends
      exact lossless_transfer hs ((sound_of_reachable hsteady).filed event.id)
        (Buffers.kept_of_reachable (server_reachable hsteady) event.id)
        (List.mem_append_right _ (List.mem_of_getElem? hsqe)) (hsends sqe hsqe)
    | other => exact hs fd

/-- If moreover every send is whole, then a connection on which a receive is under way has been
given all that was taken from it, and one on which a send is under way lacks just the bytes of
that send. -/
theorem rings_echo_whole (h : Reachable (restrict Whole step) (Sys.init n lfd) s) :
    ∀ id, ∀ sqe ∈ (s.server.loops id).ring.uncompleted,
      (∀ fd buf len, sqe.op = .recv fd buf len → given (s.log fd) = taken (s.log fd)) ∧
      ∀ fd buf len, sqe.op = .send fd buf len →
        given (s.log fd) ++ (s.server.shared.memory buf).take len = taken (s.log fd) := by
  have hlossless := lossless_of_reachable h
  have hsteady : Reachable (restrict Steady step) (Sys.init n lfd) s :=
    h.restrict_mono fun _ _ hwhole => hwhole.1
  have hfiled := (sound_of_reachable hsteady).filed
  refine fun id sqe hsqe => ⟨fun fd buf len hop => ?_, fun fd buf len hop => ?_⟩
  · exact (hlossless fd).given_eq ((hfiled id).recvs hsqe hop)
  · have hkept := Buffers.kept_of_reachable (server_reachable hsteady) id
    exact hlossless fd _ ((hfiled id).sends hkept hsqe hop)

end System

def twoLoops {n : Nat} (one two : Fin n) (res : Int) : List (Event n) :=
  ⟨two, .start 1⟩ :: oneConnect one ++ [⟨one, .complete 1 3 [104, 105, 10]⟩, ⟨one, .handle [4]⟩,
    ⟨one, .submit 1⟩, ⟨two, .submit 1⟩, ⟨two, .complete 0 6 []⟩, ⟨one, .complete 1 res []⟩,
    ⟨one, .handle [5]⟩]

theorem rings_relay_two_loops :
    ∃ s : Sys 2, Reachable (restrict Steady step) (Sys.init 2 3) s ∧
      s.log 5 = [.took [104, 105, 10], .gave [104, 105]] ∧
      (∀ fd, ∃ held, Makes (s.log fd) held) ∧
      ∀ id, ∀ sqe ∈ (s.server.loops id).ring.uncompleted,
        (∀ fd buf len, sqe.op = .recv fd buf len → Makes (s.log fd) none) ∧
        ∀ fd buf len, sqe.op = .send fd buf len →
          Makes (s.log fd) (some ((s.server.shared.memory buf).take len)) := by
  have hrun : (run (restrict Steady step) (Sys.init 2 3) (twoLoops 0 1 2)).map (fun s => s.log 5) =
      some [.took [104, 105, 10], .gave [104, 105]] := by
    decide +kernel
  rcases Reachable.of_view hrun with ⟨s, hreach, hview⟩
  exact ⟨s, hreach, hview, rings_relay hreach⟩

theorem rings_echo_whole_two_loops :
    ∃ s : Sys 2, Reachable (restrict Whole step) (Sys.init 2 3) s ∧
      (⟨.recv 5 ⟨2, 5⟩ maxMsgLen, 5⟩ : Sqe) ∈ (s.server.loops 0).ring.uncompleted ∧
      given (s.log 5) = taken (s.log 5) := by
  have hrun : (run (restrict Whole step) (Sys.init 2 3) (twoLoops 0 1 3)).map
      (fun s => (s.server.loops 0).ring.sq) = some [⟨.recv 5 ⟨2, 5⟩ maxMsgLen, 5⟩] := by
    decide +kernel
  rcases Reachable.of_view hrun with ⟨s, hreach, hview⟩
  have hmem : (⟨.recv 5 ⟨2, 5⟩ maxMsgLen, 5⟩ : Sqe) ∈ (s.server.loops 0).ring.uncompleted := by
    simp [IoRing.uncompleted, hview]
  exact ⟨s, hreach, hmem, (rings_echo_whole hreach 0 _ hmem).1 _ _ _ rfl⟩

end IoWrapper.MultiEcho.Relaying
