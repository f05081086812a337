import IoWrapper.Core.Registry
import IoWrapper.MsgEcho.Server

/-! What is to be done for each connection. A connection has one task at any time: a recv or a
send that is queued, in flight or completed, or an accept whose first recv is still to come.
The tasks have descriptors of their own, so that the file of an operation in flight is the one
that is open under its descriptor. -/
namespace IoWrapper.MsgEcho.Tasks
open Core.Machine Core.Traffic Core.Pool Core.Registry Server
open DemoEcho.Server (OpType Pc maxMessageLen)

def task (w : Work) : List Work :=
  match w.op with
  | .accept _ => []
  | .recvmsg .. | .sendmsg .. => [⟨w.op, none, w.done⟩]

def freshRecv (fd : Nat) : Work := ⟨.recvmsg fd maxMessageLen, none, 0⟩

def newcomer (cqe : Cqe) : List Work := (opened cqe).toList.map freshRecv

def tasks (l : Loop) : List Work := l.ring.pending.flatMap task ++ l.ring.cq.flatMap newcomer

inductive Reply : Work → Work → Prop where
  | send {fd len count : Nat} (hpos : 0 < count) :
      Reply ⟨.recvmsg fd len, none, count⟩ ⟨.sendmsg fd count, none, 0⟩
  | recv {fd len count : Nat} (hpos : 0 < count) :
      Reply ⟨.sendmsg fd len, none, count⟩ (freshRecv fd)

/-- What can become of the tasks when no byte is moved. -/
inductive Shift (l next : Loop) : Prop where
  | same (htasks : (tasks next).Perm (tasks l)) (hfds : next.fds = l.fds)
      (hfiles : next.files = l.files)
  | entered {fd : Nat} (hfree : l.fds fd = none)
      (htasks : (tasks next).Perm (freshRecv fd :: tasks l))
      (hfds : next.fds = Function.update l.fds fd (some l.files))
      (hfiles : next.files = l.files + 1)
  | replied {w w' : Work} {rest : List Work} (hreply : Reply w w')
      (hbefore : (tasks l).Perm (w :: rest)) (hafter : (tasks next).Perm (w' :: rest))
      (hfds : next.fds = l.fds) (hfiles : next.files = l.files)
  | left {w : Work} (htasks : (tasks l).Perm (w :: tasks next))
      (hfds : next.fds = Function.update l.fds w.op.fd none) (hfiles : next.files = l.files)

/-- The tasks are on descriptors of their own, which are open, and no file has been open under
two descriptors. -/
structure Named (l : Loop) : Prop where
  nodup : ((tasks l).map fun w => w.op.fd).Nodup
  isOpen : ∀ w ∈ tasks l, l.fds w.op.fd ≠ none
  issued : Issued l.fds l.files

/-- A recv or a send in flight has the file that is open under its descriptor, and a completion
tells how much has been moved. -/
structure Wired (l : Loop) : Prop extends Named l where
  resolved : ∀ w ∈ l.ring.inflight, w.op.connInfo.type ≠ .accept → w.file = l.fds w.op.fd
  told : ∀ cqe ∈ l.ring.cq, Told cqe

def Doing (l : Loop) (file : Nat) (P : Work → Prop) : Prop :=
  ∀ w ∈ tasks l, l.fds w.op.fd = some file → P w

section Names

variable {l next : Loop} {w w' : Work} {rest : List Work}

theorem Reply.fd_eq (h : Reply w w') : w'.op.fd = w.op.fd := by
  cases h <;> rfl

theorem Named.fd_ne (h : Named l) (htasks : (tasks l).Perm (w :: rest)) :
    ∀ w' ∈ rest, w'.op.fd ≠ w.op.fd :=
  ne_of_perm_cons h.nodup htasks

theorem Named.ne_of_free {fd : Nat} (h : Named l) (hfree : l.fds fd = none) :
    ∀ w ∈ tasks l, w.op.fd ≠ fd := by
  intro w hw heq
  rw [← heq] at hfree
  exact h.isOpen w hw hfree

theorem Named.of_perm (h : Named l) (htasks : (tasks next).Perm (tasks l))
    (hfds : next.fds = l.fds) (hfiles : next.files = l.files) : Named next := by
  constructor
  case nodup => exact (htasks.map _).nodup_iff.mpr h.nodup
  case isOpen =>
    rw [hfds]
    exact fun w hw => h.isOpen w (htasks.mem_iff.mp hw)
  case issued =>
    rw [hfds, hfiles]
    exact h.issued

theorem Named.entered {fd : Nat} (h : Named l) (hfree : l.fds fd = none)
    (htasks : (tasks next).Perm (freshRecv fd :: tasks l))
    (hfds : next.fds = Function.update l.fds fd (some l.files))
    (hfiles : next.files = l.files + 1) : Named next := by
  have hother := h.ne_of_free hfree
  constructor
  case nodup =>
    rw [(htasks.map _).nodup_iff, List.map_cons, List.nodup_cons, List.mem_map]
    exact ⟨fun ⟨w, hw, hfd⟩ => hother w hw hfd, h.nodup⟩
  case isOpen =>
    rw [hfds]
    intro w hw
    rcases List.mem_cons.mp (htasks.mem_iff.mp hw) with rfl | hw
    · simp [freshRecv, Op.fd]
    · rw [Function.update_of_ne (hother w hw)]
      exact h.isOpen w hw
  case issued =>
    rw [hfds, hfiles]
    exact h.issued.add fd

theorem Named.replaced (h : Named l) (hbefore : (tasks l).Perm (w :: rest))
    (hafter : (tasks next).Perm (w' :: rest)) (hfds : next.fds = l.fds)
    (hfiles : next.files = l.files) (hfd : w'.op.fd = w.op.fd) : Named next := by
  constructor
  case nodup =>
    have hnodup := (hbefore.map fun w => w.op.fd).nodup_iff.mp h.nodup
    rw [(hafter.map _).nodup_iff, List.map_cons, hfd]
    exact hnodup
  case isOpen =>
    rw [hfds]
    intro v hv
    rcases List.mem_cons.mp (hafter.mem_iff.mp hv) with rfl | hv
    · rw [hfd]
      exact h.isOpen w (hbefore.mem_iff.mpr (List.mem_cons_self ..))
    · exact h.isOpen v (hbefore.mem_iff.mpr (List.mem_cons_of_mem w hv))
  case issued =>
    rw [hfds, hfiles]
    exact h.issued

theorem Named.left (h : Named l) (htasks : (tasks l).Perm (w :: tasks next))
    (hfds : next.fds = Function.update l.fds w.op.fd none) (hfiles : next.files = l.files) :
    Named next := by
  constructor
  case nodup =>
    have hnodup := (htasks.map fun w => w.op.fd).nodup_iff.mp h.nodup
    exact (List.nodup_cons.mp hnodup).2
  case isOpen =>
    rw [hfds]
    intro v hv
    rw [Function.update_of_ne (h.fd_ne htasks v hv)]
    exact h.isOpen v (htasks.mem_iff.mpr (List.mem_cons_of_mem w hv))
  case issued =>
    rw [hfds, hfiles]
    exact h.issued.remove _

theorem Named.shift (h : Named l) (hshift : Shift l next) : Named next := by
  cases hshift with
  | same htasks hfds hfiles => exact h.of_perm htasks hfds hfiles
  | entered hfree htasks hfds hfiles => exact h.entered hfree htasks hfds hfiles
  | replied hreply hbefore hafter hfds hfiles =>
    exact h.replaced hbefore hafter hfds hfiles hreply.fd_eq
  | left htasks hfds hfiles => exact h.left htasks hfds hfiles

end Names

section Doings

variable {l next : Loop} {w w' : Work} {rest : List Work} {file : Nat} {P Q : Work → Prop}

theorem Named.doing_own (h : Named l) (hbefore : (tasks l).Perm (w :: rest))
    (hafter : (tasks next).Perm (w' :: rest)) (hfds : next.fds = l.fds)
    (hown : l.fds w.op.fd = some file) (hnew : Q w') : Doing next file Q := by
  intro v hv hfile
  rw [hfds] at hfile
  rcases List.mem_cons.mp (hafter.mem_iff.mp hv) with rfl | hv
  · exact hnew
  · exact absurd (h.issued.injective _ _ file hfile hown) (h.fd_ne hbefore v hv)

theorem Doing.other (h : Doing l file P) (hbefore : (tasks l).Perm (w :: rest))
    (hafter : (tasks next).Perm (w' :: rest)) (hfds : next.fds = l.fds)
    (hfd : w'.op.fd = w.op.fd) (hother : l.fds w.op.fd ≠ some file) : Doing next file P := by
  intro v hv hfile
  rw [hfds] at hfile
  rcases List.mem_cons.mp (hafter.mem_iff.mp hv) with rfl | hv
  · exact absurd (hfd ▸ hfile) hother
  · exact h v (hbefore.mem_iff.mpr (List.mem_cons_of_mem w hv)) hfile

theorem Doing.shift (h : Doing l file P) (hnamed : Named l) (hshift : Shift l next)
    (hreply : ∀ w w', Reply w w' → P w → P w') (hfirst : file = l.files → ∀ fd, P (freshRecv fd)) :
    Doing next file P := by
  cases hshift with
  | same htasks hfds =>
    intro v hv hfile
    rw [hfds] at hfile
    exact h v (htasks.mem_iff.mp hv) hfile
  | @entered fd hfree htasks hfds =>
    intro v hv hfile
    rw [hfds] at hfile
    rcases List.mem_cons.mp (htasks.mem_iff.mp hv) with rfl | hv
    · exact hfirst (Option.some.inj (hfile.symm.trans (Function.update_self ..))) fd
    · rw [Function.update_of_ne (hnamed.ne_of_free hfree v hv)] at hfile
      exact h v hv hfile
  | @replied w w' rest hnext hbefore hafter hfds =>
    by_cases hown : l.fds w.op.fd = some file
    · have hold := h w (hbefore.mem_iff.mpr (List.mem_cons_self ..)) hown
      exact hnamed.doing_own hbefore hafter hfds hown (hreply w w' hnext hold)
    · exact h.other hbefore hafter hfds hnext.fd_eq hown
  | left htasks hfds =>
    intro v hv hfile
    rw [hfds, Function.update_of_ne (hnamed.fd_ne htasks v hv)] at hfile
    exact h v (htasks.mem_iff.mpr (List.mem_cons_of_mem _ hv)) hfile

end Doings

section Moves

variable {sockfd : Nat} {l next : Loop} {cqe : Cqe} {rest : List Cqe} {w : Work}

theorem tasks_push (op : Op) : (tasks (l.push op)).Perm (task ⟨op, none, 0⟩ ++ tasks l) := by
  have hperm := (IoRing.pending_push l.ring ⟨op, none, 0⟩).flatMap_right task
  rw [List.flatMap_cons] at hperm
  have htasks := hperm.append_right (l.ring.cq.flatMap newcomer)
  rwa [List.append_assoc] at htasks

theorem tasks_seen (hcq : l.ring.cq = cqe :: rest) :
    (tasks l).Perm (task cqe.entry ++ newcomer cqe ++ tasks l.cqeSeen) := by
  have hperm := (IoRing.pending_seen hcq).flatMap_right task
  have hnew : l.ring.cq.flatMap newcomer = newcomer cqe ++ l.cqeSeen.ring.cq.flatMap newcomer := by
    rw [hcq, List.flatMap_cons]
    simp [Loop.cqeSeen, hcq]
  rw [List.flatMap_cons] at hperm
  unfold tasks
  rw [hnew]
  refine (hperm.append_right _).trans ?_
  rw [List.append_assoc, List.append_assoc]
  exact (List.perm_append_comm_assoc ..).append_left _

theorem tasks_submit (count : Nat) : (tasks (l.submit count)).Perm (tasks l) := by
  have hsame : (l.submit count).ring.pending.flatMap task =
      (l.ring.submit count).pending.flatMap task := by
    simp only [Loop.submit, IoRing.pending, IoRing.uncompleted, IoRing.submit,
      List.flatMap_append, List.flatMap_map]
    rfl
  unfold tasks
  rw [hsame]
  exact ((IoRing.pending_submit l.ring count).flatMap_right task).append_right _

theorem tasks_complete {i : Nat} (h : l.ring.inflight[i]? = some cqe.entry) :
    (tasks { l with ring := l.ring.complete i cqe }).Perm (newcomer cqe ++ tasks l) := by
  have hperm := (IoRing.pending_complete h).flatMap_right task
  unfold tasks
  simp only [IoRing.complete_cq, List.flatMap_append, List.flatMap_cons, List.flatMap_nil,
    List.append_nil]
  rw [← List.append_assoc]
  exact ((hperm.append_right _).append_right _).trans List.perm_append_comm

theorem task_of_type (h : w.op.connInfo.type ≠ .accept) : task w = [⟨w.op, none, w.done⟩] := by
  cases hop : w.op with
  | accept fd => exact absurd (by rw [hop]; rfl) h
  | recvmsg fd len => rw [task, hop]
  | sendmsg fd len => rw [task, hop]

theorem newcomer_of_type (h : cqe.entry.op.connInfo.type ≠ .accept) : newcomer cqe = [] := by
  rw [newcomer, opened, if_neg fun hboth => h hboth.1]
  rfl

theorem tasks_moved {i : Nat} (h : l.ring.inflight[i]? = some w)
    (htype : w.op.connInfo.type ≠ .accept) (count : Nat) :
    ∃ rest, (tasks l).Perm (⟨w.op, none, w.done⟩ :: rest) ∧
      (tasks (l.moved i w count)).Perm (⟨w.op, none, w.done + count⟩ :: rest) := by
  rcases IoRing.pending_renew (b := { w with done := w.done + count }) h with
    ⟨rest, hbefore, hafter⟩
  have hbefore := (hbefore.flatMap_right task).append_right (l.ring.cq.flatMap newcomer)
  have hafter := (hafter.flatMap_right task).append_right (l.ring.cq.flatMap newcomer)
  rw [List.flatMap_cons, task_of_type htype] at hbefore
  rw [List.flatMap_cons, task_of_type (by exact htype)] at hafter
  exact ⟨_, hbefore, hafter⟩

theorem tasks_finish (hcq : l.ring.cq = cqe :: rest)
    (htype : cqe.entry.op.connInfo.type ≠ .accept) :
    (tasks l).Perm (⟨cqe.entry.op, none, cqe.entry.done⟩ :: tasks l.cqeSeen) := by
  have hperm := tasks_seen hcq
  rwa [task_of_type htype, newcomer_of_type htype] at hperm

theorem told_done (h : Told cqe) (htype : cqe.entry.op.connInfo.type ≠ .accept)
    (hres : 0 < cqe.res) : 0 < cqe.entry.done ∧ cqe.res.toNat = cqe.entry.done := by
  have hcount := h.resolve_left htype
  split at hcount <;> omega

theorem shift_answered {pc : Pc} (hcq : l.ring.cq = cqe :: rest) (htold : Told cqe)
    (h : Answered sockfd l cqe next) : Shift l { next with pc := pc } := by
  cases h with
  | notAccepted hop hres =>
    have hperm := tasks_seen hcq
    have hnew : newcomer cqe = [] := by
      rw [newcomer, opened, if_neg fun hboth => by omega]
      rfl
    rw [task, hop, hnew] at hperm
    exact .same hperm.symm rfl rfl
  | accepted hop hres =>
    have hperm := tasks_seen hcq
    have hnew : newcomer cqe = [freshRecv cqe.res.toNat] := by
      rw [newcomer, opened, if_pos ⟨by rw [hop]; rfl, hres⟩]
      rfl
    rw [task, hop, hnew] at hperm
    exact .same (((tasks_push _).trans ((tasks_push _).append_left _)).trans hperm.symm) rfl rfl
  | readFailed hop hres =>
    have hfinish := tasks_finish hcq (by simp [hop, Op.connInfo])
    rw [hop] at hfinish
    exact .left hfinish rfl rfl
  | received hop hres =>
    have htype : cqe.entry.op.connInfo.type ≠ .accept := by simp [hop, Op.connInfo]
    have hdone := told_done htold htype hres
    have hfinish := tasks_finish hcq htype
    rw [hop] at hfinish
    rw [hdone.2]
    exact .replied (.send hdone.1) hfinish (tasks_push _) rfl rfl
  | writeFailed hop hres =>
    have hfinish := tasks_finish hcq (by simp [hop, Op.connInfo])
    rw [hop] at hfinish
    exact .left hfinish rfl rfl
  | sent hop hres =>
    have htype : cqe.entry.op.connInfo.type ≠ .accept := by simp [hop, Op.connInfo]
    have hdone := told_done htold htype hres
    have hfinish := tasks_finish hcq htype
    rw [hop] at hfinish
    exact .replied (.recv hdone.1) hfinish (tasks_push _) rfl rfl

theorem shift_completed {i : Nat} (hop : l.ring.inflight[i]? = some cqe.entry)
    (hpossible : l.Possible cqe) : Shift l (l.completed i cqe) := by
  have hperm := tasks_complete hop
  cases hopened : opened cqe with
  | none =>
    rw [newcomer, hopened] at hperm
    rw [Loop.completed, hopened]
    exact .same hperm rfl rfl
  | some fd =>
    rw [newcomer, hopened] at hperm
    rw [Loop.completed, hopened]
    exact .entered (hpossible.2.2.1 fd hopened) hperm rfl rfl

theorem Wired.shift {m : Move} (h : Wired l) (hstep : l.step sockfd m = some next) :
    Shift l next := by
  cases Loop.step_sound hstep with
  | submitted hpc => exact .same (tasks_submit _) rfl rfl
  | failed | stopped => exact .same (List.Perm.refl _) rfl rfl
  | answered hpc hcq hanswered =>
    exact shift_answered hcq (h.told _ (hcq ▸ List.mem_cons_self ..)) hanswered
  | completed hop hpossible => exact shift_completed hop hpossible

theorem mem_tasks_of_inflight (hw : w ∈ l.ring.inflight)
    (htype : w.op.connInfo.type ≠ .accept) : ⟨w.op, none, w.done⟩ ∈ tasks l := by
  have hmem : w ∈ l.ring.pending := List.mem_append_left _ (List.mem_append_right _ hw)
  apply List.mem_append_left
  refine List.mem_flatMap.mpr ⟨w, hmem, ?_⟩
  rw [task_of_type htype]
  exact List.mem_cons_self ..

theorem Wired.fds_eq (h : Wired l) (hshift : Shift l next) (hold : w ∈ l.ring.inflight)
    (hnew : w ∈ next.ring.inflight) (htype : w.op.connInfo.type ≠ .accept) :
    next.fds w.op.fd = l.fds w.op.fd := by
  cases hshift with
  | same _ hfds | replied _ _ _ hfds => rw [hfds]
  | entered hfree htasks hfds =>
    rw [hfds]
    exact Function.update_of_ne (h.ne_of_free hfree _ (mem_tasks_of_inflight hold htype)) ..
  | left htasks hfds =>
    rw [hfds]
    exact Function.update_of_ne (h.fd_ne htasks _ (mem_tasks_of_inflight hnew htype)) ..

theorem completed_ring (i : Nat) (cqe : Cqe) :
    (l.completed i cqe).ring = l.ring.complete i cqe := by
  unfold Loop.completed
  split <;> rfl

theorem inflight_cases {m : Move} (hstep : l.step sockfd m = some next) :
    ∀ w ∈ next.ring.inflight, w ∈ l.ring.inflight ∨ w.file = next.fds w.op.fd := by
  intro w hw
  cases Loop.step_sound hstep with
  | submitted hpc =>
    rcases List.mem_append.mp hw with hw | hw
    · exact Or.inl hw
    · rcases List.mem_map.mp hw with ⟨queued, -, rfl⟩
      exact Or.inr rfl
  | failed | stopped => exact Or.inl hw
  | answered hpc hcq hanswered =>
    refine Or.inl ?_
    cases hanswered <;> exact hw
  | completed hop hpossible =>
    rw [completed_ring] at hw
    exact Or.inl (List.mem_of_mem_eraseIdx hw)

theorem Wired.told_step {m : Move} (h : Wired l) (hstep : l.step sockfd m = some next) :
    ∀ cqe ∈ next.ring.cq, Told cqe := by
  intro cqe hcqe
  cases Loop.step_sound hstep with
  | submitted | failed | stopped => exact h.told cqe hcqe
  | answered hpc hcq hanswered =>
    apply h.told cqe
    cases hanswered <;> exact List.mem_of_mem_tail hcqe
  | completed hop hpossible =>
    rw [completed_ring, IoRing.complete_cq] at hcqe
    rcases List.mem_append.mp hcqe with hold | hnew
    · exact h.told cqe hold
    · rw [List.mem_singleton.mp hnew]
      exact hpossible.2.2.2

theorem Wired.step {m : Move} (h : Wired l) (hstep : l.step sockfd m = some next) :
    Wired next := by
  have hshift := h.shift hstep
  refine ⟨h.toNamed.shift hshift, ?_, h.told_step hstep⟩
  intro w hw htype
  rcases inflight_cases hstep w hw with hold | hfile
  · rw [h.fds_eq hshift hold hw htype]
    exact h.resolved w hold htype
  · exact hfile

end Moves

section Transfers

variable {l : Loop} {limit : Op → Nat} {i count : Nat} {w : Work}

theorem mover_type (h : l.mover limit i count = some w) (haccept : ∀ fd, limit (.accept fd) = 0) :
    w.op.connInfo.type ≠ .accept := by
  rcases mover_eq_some.mp h with ⟨-, -, hpos, hle⟩
  cases hop : w.op with
  | accept fd =>
    rw [hop, haccept] at hle
    omega
  | recvmsg fd len | sendmsg fd len => simp [Op.connInfo]

theorem mover_receives (h : l.mover Op.receives i count = some w) :
    ∃ fd len, w.op = .recvmsg fd len ∧ w.done + count ≤ len := by
  rcases mover_eq_some.mp h with ⟨-, -, hpos, hle⟩
  cases hop : w.op with
  | recvmsg fd len => exact ⟨fd, len, rfl, by rwa [hop] at hle⟩
  | accept fd | sendmsg fd len =>
    rw [hop, Op.receives] at hle
    omega

theorem mover_sends (h : l.mover Op.sends i count = some w) :
    ∃ fd len, w.op = .sendmsg fd len ∧ w.done + count ≤ len := by
  rcases mover_eq_some.mp h with ⟨-, -, hpos, hle⟩
  cases hop : w.op with
  | sendmsg fd len => exact ⟨fd, len, rfl, by rwa [hop] at hle⟩
  | accept fd | recvmsg fd len =>
    rw [hop, Op.sends] at hle
    omega

theorem Wired.moving (h : Wired l) (hmover : l.mover limit i count = some w)
    (haccept : ∀ fd, limit (.accept fd) = 0) :
    ∃ file rest, w.file = some file ∧ l.fds w.op.fd = some file ∧
      (tasks l).Perm (⟨w.op, none, w.done⟩ :: rest) ∧
      (tasks (l.moved i w count)).Perm (⟨w.op, none, w.done + count⟩ :: rest) := by
  have htype := mover_type hmover haccept
  rcases mover_eq_some.mp hmover with ⟨hop, hfile, -, -⟩
  rcases Option.ne_none_iff_exists'.mp hfile with ⟨file, hfile⟩
  rcases tasks_moved hop htype count with ⟨rest, hbefore, hafter⟩
  have hresolved := h.resolved w (List.mem_of_getElem? hop) htype
  exact ⟨file, rest, hfile, hresolved.symm.trans hfile, hbefore, hafter⟩

theorem Wired.moved (h : Wired l) (hmover : l.mover limit i count = some w)
    (haccept : ∀ fd, limit (.accept fd) = 0) : Wired (l.moved i w count) := by
  rcases h.moving hmover haccept with ⟨file, rest, hfile, hfd, hbefore, hafter⟩
  refine ⟨h.toNamed.replaced hbefore hafter rfl rfl rfl, ?_, h.told⟩
  intro v hv htype
  rcases List.mem_or_eq_of_mem_set hv with hv | rfl
  · exact h.resolved v hv htype
  · exact hfile.trans hfd.symm

theorem wired_step {sockfd : Nat} {s t : State} {event : Event} (h : Wired s.loop)
    (hstep : step sockfd s event = some t) : Wired t.loop := by
  cases step_sound hstep with
  | moved hmove => exact h.step hmove
  | stored hmover => exact h.moved hmover fun _ => rfl
  | transmitted hmover => exact h.moved hmover fun _ => rfl

end Transfers

theorem wired_init (sockfd : Nat) : Wired (State.init sockfd).loop := by
  refine ⟨⟨List.nodup_nil, ?_, issued_none.add sockfd⟩, ?_, ?_⟩
  · exact fun w hw => absurd hw List.not_mem_nil
  · exact fun w hw => absurd hw List.not_mem_nil
  · exact fun cqe hcqe => absurd hcqe List.not_mem_nil

theorem wired_of_reachable {sockfd : Nat} {s : State}
    (h : Reachable (step sockfd) (State.init sockfd) s) : Wired s.loop :=
  h.invariant (fun s => Wired s.loop) (wired_init sockfd)
    fun _ _ _ _ hs hstep => wired_step hs hstep

end IoWrapper.MsgEcho.Tasks
