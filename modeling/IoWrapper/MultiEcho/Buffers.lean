import IoWrapper.Core.Collections
import IoWrapper.MultiEcho.Registry

/-! The buffers of the connections. Every loop that starts replaces the table of buffers that
all of them use, so a send has the buffer of its receive as long as no loop starts in
between. A descriptor is held by one operation at a time, or by its completion. The collector
of Go is not part of this: it may free a table that a later loop has replaced while the kernel
still fills a buffer of it. -/
namespace IoWrapper.MultiEcho.Buffers
open Core.Collections Core.Machine Core.Traffic Core.Registry GoEcho.Operations Server Registry

def isRecv : Op → Bool
  | .recv .. => true
  | .accept _ | .send .. | .close _ => false

/-- An accept returns a descriptor that is not open. -/
def Unused (sh : Shared) (ring : IoRing Sqe) : Action → Prop
  | .complete i res _ =>
    ∀ sqe ∈ ring.inflight[i]?, sqe.op.isAccept → 0 ≤ res → sh.fds res.toNat = none
  | _ => True

instance (sh : Shared) (ring : IoRing Sqe) : (action : Action) → Decidable (Unused sh ring action)
  | .complete i _ _ => inferInstanceAs (Decidable (∀ sqe ∈ ring.inflight[i]?, _))
  | .start _ | .submit _ | .submitError _ | .waitError | .handle _ =>
    inferInstanceAs (Decidable True)

/-- A loop starts only while no receive is queued, in flight, or to be processed. -/
def Settled {n : Nat} (loops : Fin n → Loop) : Action → Prop
  | .start _ => ∀ id, ∀ sqe ∈ (loops id).ring.pending, ¬ isRecv sqe.op
  | _ => True

instance {n : Nat} (loops : Fin n → Loop) : (action : Action) → Decidable (Settled loops action)
  | .start _ => inferInstanceAs (Decidable (∀ id, ∀ sqe ∈ (loops id).ring.pending, _))
  | .complete .. | .submit _ | .submitError _ | .waitError | .handle _ =>
    inferInstanceAs (Decidable True)

def Fair {n : Nat} (s : State n) (event : Event n) : Prop :=
  Unused s.shared (s.loops event.id).ring event.action

instance {n : Nat} (s : State n) (event : Event n) : Decidable (Fair s event) :=
  inferInstanceAs (Decidable (Unused ..))

def Orderly {n : Nat} (s : State n) (event : Event n) : Prop :=
  Fair s event ∧ Settled s.loops event.action

instance {n : Nat} (s : State n) (event : Event n) : Decidable (Orderly s event) :=
  inferInstanceAs (Decidable (_ ∧ _))

/-- The buffer has the bytes that the last receive on the descriptor has stored, and that
receive was queued with it. -/
def Fresh (sh : Shared) (fd : Nat) (buf : Buf) (len : Nat) : Prop :=
  buf.index = fd ∧ ∃ data, sh.stored fd = some (buf, data) ∧ data.length = len ∧
    (sh.memory buf).take len = data

/-- An operation on a connection, or its completion, with the part of a buffer that is
to be sent. -/
structure Hold where
  fd : Nat
  due : Option (Buf × Nat)

def opHold : Op → Option Hold
  | .accept _ => none
  | .recv fd _ _ => some ⟨fd, none⟩
  | .send fd buf len => some ⟨fd, some (buf, len)⟩
  | .close fd => some ⟨fd, none⟩

def cqeHold (cqe : Cqe) : Option Hold :=
  match cqe.entry.op with
  | .accept _ => if 0 ≤ cqe.res then some ⟨cqe.res.toNat, none⟩ else none
  | .recv fd buf _ => some ⟨fd, if 0 < cqe.res then some (buf, cqe.res.toNat) else none⟩
  | .send fd buf len => some ⟨fd, some (buf, len)⟩
  | .close _ => none

def holds (ring : IoRing Sqe) : List Hold :=
  ring.uncompleted.filterMap (fun sqe => opHold sqe.op) ++ ring.cq.filterMap cqeHold

def held (fd : Nat) (holds : List Hold) : Nat := holds.countP fun hold => hold.fd = fd

/-- How often a loop may hold a descriptor with this owner. -/
def share (id : Nat) (owner : Option Nat) : Nat := if owner = some id then 1 else 0

theorem share_self (id : Nat) : share id (some id) = 1 := if_pos rfl

theorem share_none (id : Nat) : share id none = 0 := rfl

theorem share_le_one (id : Nat) (owner : Option Nat) : share id owner ≤ 1 := by
  unfold share
  split <;> omega

theorem owner_of_share_pos {id : Nat} {owner : Option Nat} (h : 0 < share id owner) :
    owner = some id := by
  unfold share at h
  split at h
  · assumption
  · omega

section Rings

variable {ring : IoRing Sqe}

theorem holds_pushAll (ring : IoRing Sqe) (sqes : List Sqe) :
    (holds (ring.pushAll sqes)).Perm
      (sqes.filterMap (fun sqe => opHold sqe.op) ++ holds ring) := by
  have hmove := ((IoRing.uncompleted_pushAll ring sqes).filterMap fun sqe => opHold sqe.op)
  rw [List.filterMap_append] at hmove
  have hall := hmove.append_right (ring.cq.filterMap cqeHold)
  rw [List.append_assoc] at hall
  exact hall

theorem holds_submit (ring : IoRing Sqe) (count : Nat) :
    (holds (ring.submit count)).Perm (holds ring) :=
  ((IoRing.uncompleted_submit ring count).filterMap _).append_right _

theorem holds_seen (ring : IoRing Sqe) {cqe : Cqe} {rest : List Cqe} (hcq : ring.cq = cqe :: rest) :
    (holds ring).Perm ((cqeHold cqe).toList ++ holds ring.seen) := by
  unfold holds
  rw [IoRing.seen_cq, IoRing.seen_uncompleted, hcq, filterMap_cons_toList, List.tail_cons]
  exact List.perm_append_comm_assoc _ _ _

theorem holds_complete {i : Nat} (cqe : Cqe) (h : ring.inflight[i]? = some cqe.entry) :
    ∃ others, (holds ring).Perm ((opHold cqe.entry.op).toList ++ others) ∧
      (holds (ring.complete i cqe)).Perm ((cqeHold cqe).toList ++ others) := by
  refine ⟨(ring.complete i cqe).uncompleted.filterMap (fun sqe => opHold sqe.op) ++
    ring.cq.filterMap cqeHold, ?_, ?_⟩
  · have hmove := (IoRing.uncompleted_complete h).filterMap fun sqe => opHold sqe.op
    rw [filterMap_cons_toList] at hmove
    rw [← List.append_assoc]
    exact hmove.append_right _
  · unfold holds
    rw [IoRing.complete_cq, List.filterMap_append, ← List.append_assoc]
    refine List.perm_append_comm.trans (List.Perm.append_right _ ?_)
    rw [filterMap_cons_toList, List.filterMap_nil, List.append_nil]

theorem held_append (fd : Nat) (front back : List Hold) :
    held fd (front ++ back) = held fd front + held fd back :=
  List.countP_append

theorem held_perm (fd : Nat) {front back : List Hold} (h : front.Perm back) :
    held fd front = held fd back :=
  h.countP_eq _

theorem held_none (fd : Nat) : held fd (Option.toList none) = 0 := rfl

theorem held_some (fd : Nat) (hold : Hold) :
    held fd (Option.toList (some hold)) = if hold.fd = fd then 1 else 0 := by
  simp [held, List.countP_singleton]

theorem held_pos {hold : Hold} {all : List Hold} (h : hold ∈ all) : 0 < held hold.fd all :=
  List.countP_pos_iff.mpr ⟨hold, h, by simp⟩

def requestFd : Request → Option Nat
  | .accept _ => none
  | .recv cfd | .send cfd _ | .close cfd => some cfd

theorem held_requests (fd : Nat) (sqes : List Sqe) :
    held fd (sqes.filterMap fun sqe => opHold sqe.op) =
      ((sqes.map fun sqe => sqe.op.request).filterMap requestFd).count fd := by
  induction sqes with
  | nil => rfl
  | cons sqe sqes ih =>
    rw [filterMap_cons_toList, held_append, ih, List.map_cons, filterMap_cons_toList,
      List.count_append]
    congr 1
    cases sqe.op with
    | accept => rfl
    | recv own | send own | close own =>
      simp [opHold, Op.request, requestFd, held, List.count_singleton]

theorem held_answers_le {lfd : Nat} {cqe : Cqe} {sqes : List Sqe}
    (h : sqes.map (fun sqe => sqe.op.request) = answers lfd cqe.res cqe.entry.op.request)
    (fd : Nat) :
    held fd (sqes.filterMap fun sqe => opHold sqe.op) ≤ held fd (cqeHold cqe).toList := by
  rw [held_requests, h]
  unfold cqeHold
  cases cqe.entry.op with
  | accept =>
    by_cases hres : cqe.res < 0
    · simp [Op.request, answers_failed hres]
    · rw [if_pos (Int.not_lt.mp hres), Op.request, answers_accepted (Int.not_lt.mp hres)]
      change [cqe.res.toNat].count fd ≤ _
      simp [held, List.count_singleton]
  | recv own =>
    by_cases hres : cqe.res ≤ 0
    · rw [Op.request, answers_unread hres]
      split
      · simp [requestFd, held, List.count_singleton]
      · simp
    · rw [Op.request, answers_received (Int.not_le.mp hres)]
      simp [requestFd, held, List.count_singleton]
  | send own =>
    change ([Request.recv own].filterMap requestFd).count fd ≤ _
    simp [requestFd, held, List.count_singleton]
  | close => exact Nat.zero_le _

end Rings

/-- What is kept of a ring: a descriptor that its loop has accepted is held at most once,
and no other is held; the receives have buffers of the current table; what is to be sent is
what has been received. -/
structure Kept (id : Nat) (sh : Shared) (ring : IoRing Sqe) : Prop where
  one : ∀ fd, held fd (holds ring) ≤ share id (sh.fds fd)
  recvs : ∀ sqe ∈ ring.pending, ∀ fd buf len, sqe.op = .recv fd buf len → buf = ⟨sh.buffs, fd⟩
  fresh : ∀ hold ∈ holds ring, ∀ due ∈ hold.due, Fresh sh hold.fd due.1 due.2

structure Agree (fd : Nat) (sh sh' : Shared) : Prop where
  fds : sh'.fds fd = sh.fds fd
  stored : sh'.stored fd = sh.stored fd
  memory : ∀ table, sh'.memory ⟨table, fd⟩ = sh.memory ⟨table, fd⟩

section Frame

variable {id fd : Nat} {sh sh' : Shared} {ring : IoRing Sqe}

theorem Fresh.agree {buf : Buf} {len : Nat} (h : Fresh sh fd buf len) (hagree : Agree fd sh sh') :
    Fresh sh' fd buf len := by
  rcases h with ⟨rfl, data, hstored, hlength, hmemory⟩
  refine ⟨rfl, data, hagree.stored.trans hstored, hlength, ?_⟩
  rw [show sh'.memory buf = sh.memory buf from hagree.memory buf.table]
  exact hmemory

theorem Kept.owned (h : Kept id sh ring) {hold : Hold} (hmem : hold ∈ holds ring) :
    sh.fds hold.fd = some id := by
  have hpos := held_pos hmem
  have hone := h.one hold.fd
  exact owner_of_share_pos (by omega)

theorem Kept.frame (h : Kept id sh ring) (hagree : ∀ fd, sh.fds fd = some id → Agree fd sh sh')
    (hrecvs : ∀ sqe ∈ ring.pending, ∀ fd buf len, sqe.op = .recv fd buf len →
      buf = ⟨sh'.buffs, fd⟩) : Kept id sh' ring := by
  refine ⟨?_, hrecvs, ?_⟩
  · intro fd
    have hone := h.one fd
    by_cases howned : sh.fds fd = some id
    · rw [(hagree fd howned).fds]
      exact hone
    · have hzero : share id (sh.fds fd) = 0 := if_neg howned
      omega
  · intro hold hmem due hdue
    exact (h.fresh hold hmem due hdue).agree (hagree hold.fd (h.owned hmem))

theorem Agree.refl (fd : Nat) (sh : Shared) : Agree fd sh sh := ⟨rfl, rfl, fun _ => rfl⟩

def touched (op : Op) (res : Int) : Option Nat :=
  match op with
  | .accept _ => if 0 ≤ res then some res.toNat else none
  | .recv fd _ _ | .close fd => some fd
  | .send .. => none

theorem touched_spec {op : Op} {res : Int}
    (hunused : op.isAccept → 0 ≤ res → sh.fds res.toNat = none) (h : fd ∈ touched op res) :
    sh.fds fd = none ∨ opHold op = some ⟨fd, none⟩ := by
  cases op with
  | accept =>
    simp only [touched] at h
    split at h
    · rename_i hres
      cases h
      exact Or.inl (hunused rfl hres)
    · cases h
  | recv | close =>
    cases h
    exact Or.inr rfl
  | send => cases h

theorem completed_agree {op : Op} {res : Int} {data : List UInt8}
    (hbuf : ∀ fd buf len, op = .recv fd buf len → buf.index = fd) (hne : fd ∉ touched op res) :
    Agree fd sh (sh.completed id op res data) := by
  cases op with
  | accept lfd =>
    simp only [Shared.completed, touched] at hne ⊢
    split
    · rename_i hres
      simp only [hres, if_true, Option.mem_some] at hne
      exact ⟨Function.update_of_ne (Ne.symm hne) _ _, rfl, fun _ => rfl⟩
    · exact Agree.refl fd sh
  | recv own buf len =>
    simp only [Shared.completed, touched, Option.mem_some] at hne ⊢
    split
    · refine ⟨rfl, Function.update_of_ne (Ne.symm hne) _ _, fun table => ?_⟩
      apply Function.update_of_ne
      intro heq
      apply hne
      rw [← hbuf own buf len rfl, ← heq]
    · exact Agree.refl fd sh
  | send own buf len => exact Agree.refl fd sh
  | close own =>
    simp only [touched, Option.mem_some] at hne
    exact ⟨Function.update_of_ne (Ne.symm hne) _ _, rfl, fun _ => rfl⟩

end Frame

section Steps

variable {id : Nat} {sh : Shared} {ring : IoRing Sqe}

theorem Kept.started (h : Kept id sh ring)
    (hnone : ∀ sqe ∈ ring.pending, ¬ isRecv sqe.op) (panic : Option Panic) :
    Kept id { sh with buffs := sh.buffs + 1, panic := panic } ring := by
  refine h.frame (fun fd _ => ⟨rfl, rfl, fun _ => rfl⟩) ?_
  intro sqe hsqe fd buf len hop
  exact absurd (by rw [hop]; rfl) (hnone sqe hsqe)

theorem Kept.accepting (h : Kept id sh ring) (lfd userData : Nat) :
    Kept id sh (ring.push ⟨.accept lfd, userData⟩) := by
  have hholds : (holds (ring.push ⟨.accept lfd, userData⟩)).Perm (holds ring) :=
    holds_pushAll ring [⟨.accept lfd, userData⟩]
  constructor
  case one =>
    intro fd
    rw [held_perm _ hholds]
    exact h.one fd
  case recvs =>
    intro sqe hsqe fd buf len hop
    rcases List.mem_cons.mp ((IoRing.pending_push ring _).mem_iff.mp hsqe) with rfl | hsqe
    · cases hop
    · exact h.recvs sqe hsqe fd buf len hop
  case fresh => exact fun hold hmem => h.fresh hold (hholds.mem_iff.mp hmem)

theorem Kept.submit (h : Kept id sh ring) (count : Nat) : Kept id sh (ring.submit count) := by
  have hholds := holds_submit ring count
  constructor
  case one =>
    intro fd
    rw [held_perm _ hholds]
    exact h.one fd
  case recvs =>
    exact fun sqe hsqe => h.recvs sqe ((IoRing.pending_submit ring count).mem_iff.mp hsqe)
  case fresh => exact fun hold hmem => h.fresh hold (hholds.mem_iff.mp hmem)

theorem send_mem_answers {lfd fd len : Nat} {op : Op} {res : Int}
    (h : .send fd len ∈ answers lfd res op.request) :
    0 < res ∧ len = res.toNat ∧ ∃ buf size, op = .recv fd buf size := by
  cases op with
  | accept =>
    by_cases hres : res < 0
    · simp [Op.request, answers_failed hres] at h
    · simp [Op.request, answers_accepted (Int.not_lt.mp hres)] at h
  | recv own buf size =>
    by_cases hres : res ≤ 0
    · rw [Op.request, answers_unread hres] at h
      split at h <;> simp at h
    · rw [Op.request, answers_received (Int.not_le.mp hres), List.mem_singleton,
        Request.send.injEq] at h
      exact ⟨Int.not_le.mp hres, h.2, buf, size, by rw [h.1]⟩
  | send own =>
    cases List.mem_singleton.mp (show Request.send fd len ∈ [Request.recv own] from h)
  | close => exact absurd h List.not_mem_nil

theorem opHold_due {op : Op} {hold : Hold} {due : Buf × Nat} (h : opHold op = some hold)
    (hdue : due ∈ hold.due) : op = .send hold.fd due.1 due.2 := by
  cases op with
  | accept => cases h
  | recv | close =>
    cases h
    cases hdue
  | send =>
    cases h
    cases hdue
    rfl

theorem Kept.turned {lfd : Nat} {l l' : Loop} {cqe : Cqe} {rest : List Cqe} {sqes : List Sqe}
    (h : Kept id sh l.ring) (hcq : l.ring.cq = cqe :: rest)
    (hturned : Turned lfd sh.buffs l cqe sqes l') : Kept id sh l'.ring := by
  have hpushed := holds_pushAll l.ring sqes
  have hseen := holds_seen (l.ring.pushAll sqes) hcq
  have hpending := IoRing.pending_seen (r := l.ring.pushAll sqes) hcq
  have hcqe : cqe ∈ l.ring.cq := by
    rw [hcq]
    exact List.mem_cons_self ..
  rw [hturned.ring]
  constructor
  case one =>
    intro fd
    have hsame := held_perm fd (hseen.symm.trans hpushed)
    rw [held_append, held_append] at hsame
    have hle := held_answers_le hturned.requests fd
    have hone := h.one fd
    omega
  case recvs =>
    intro sqe hsqe fd buf len hop
    have hmem := (IoRing.pending_pushAll l.ring sqes).mem_iff.mp
      (hpending.mem_iff.mpr (List.mem_cons_of_mem _ hsqe))
    rcases List.mem_append.mp hmem with hnew | hold
    · have hbuf := hturned.bufs sqe hnew
      rw [hop] at hbuf
      exact hbuf buf rfl
    · exact h.recvs sqe hold fd buf len hop
  case fresh =>
    intro hold hmem due hdue
    have hall := hpushed.mem_iff.mp (hseen.mem_iff.mpr (List.mem_append_right _ hmem))
    rcases List.mem_append.mp hall with hnew | hold
    · rcases List.mem_filterMap.mp hnew with ⟨sqe, hsqe, hop⟩
      have hsend := opHold_due hop hdue
      have hrequest : sqe.op.request ∈ answers lfd cqe.res cqe.entry.op.request := by
        rw [← hturned.requests]
        exact List.mem_map_of_mem hsqe
      rw [hsend] at hrequest
      rcases send_mem_answers hrequest with ⟨hres, hlen, buf, size, hrecv⟩
      have hheld : (⟨hold.fd, some (buf, cqe.res.toNat)⟩ : Hold) ∈ holds l.ring := by
        refine List.mem_append_right _ (List.mem_filterMap.mpr ⟨cqe, hcqe, ?_⟩)
        simp only [cqeHold, hrecv, if_pos hres]
      have hbuf := hturned.bufs sqe hsqe due.1 (by rw [hsend]; rfl)
      have hown := h.recvs cqe.entry (IoRing.mem_pending_of_cq hcqe) hold.fd buf size hrecv
      rw [hsend] at hbuf
      rw [show due.1 = buf from hbuf.trans hown.symm, hlen]
      exact h.fresh _ hheld (buf, cqe.res.toNat) rfl
    · exact h.fresh _ hold due hdue

section Completion

variable {sqe : Sqe} {res : Int} {data : List UInt8} {others : List Hold}

theorem Kept.untouched (h : Kept id sh ring)
    (hbefore : (holds ring).Perm ((opHold sqe.op).toList ++ others))
    (hunused : sqe.op.isAccept → 0 ≤ res → sh.fds res.toNat = none) {hold : Hold}
    (hmem : hold ∈ others) : hold.fd ∉ touched sqe.op res := by
  intro htouched
  rcases touched_spec hunused htouched with hnone | hop
  · rw [h.owned (hbefore.mem_iff.mpr (List.mem_append_right _ hmem))] at hnone
    cases hnone
  · have hone := h.one hold.fd
    have hpos := held_pos hmem
    have hmax := share_le_one id (sh.fds hold.fd)
    rw [held_perm _ hbefore, held_append, hop, held_some, if_pos rfl] at hone
    omega

theorem one_completed {fd : Nat}
    (hone : held fd (opHold sqe.op).toList + held fd others ≤ share id (sh.fds fd))
    (hunused : sqe.op.isAccept → 0 ≤ res → sh.fds res.toNat = none) :
    held fd (cqeHold ⟨sqe, res⟩).toList + held fd others ≤
      share id ((sh.completed id sqe.op res data).fds fd) := by
  unfold cqeHold
  dsimp only
  cases hop : sqe.op with
  | accept lfd =>
    rw [hop] at hone hunused
    simp only [opHold, held_none] at hone
    simp only [Shared.completed]
    split
    · rename_i hres
      dsimp only
      rw [held_some]
      by_cases heq : fd = res.toNat
      · rw [heq, hunused rfl hres, share_none] at hone
        rw [heq, Function.update_self, if_pos rfl, share_self]
        omega
      · rw [Function.update_of_ne heq, if_neg (Ne.symm heq)]
        exact hone
    · exact hone
  | recv own buf len =>
    rw [hop] at hone
    simp only [opHold] at hone
    simp only [Shared.completed]
    rw [held_some] at hone ⊢
    split <;> exact hone
  | send own buf len =>
    rw [hop] at hone
    exact hone
  | close own =>
    rw [hop] at hone
    simp only [opHold, held_some] at hone
    simp only [Shared.completed, held_none]
    by_cases heq : fd = own
    · have hmax := share_le_one id (sh.fds fd)
      rw [if_pos heq.symm] at hone
      omega
    · rw [if_neg (Ne.symm heq)] at hone
      rw [Function.update_of_ne heq]
      exact hone

theorem fresh_completed (h : Kept id sh ring) (hmem : sqe ∈ ring.pending)
    (hbefore : (holds ring).Perm ((opHold sqe.op).toList ++ others))
    (hdata : data.length = received sqe.op res) {hold : Hold}
    (hhold : cqeHold ⟨sqe, res⟩ = some hold) {due : Buf × Nat} (hdue : due ∈ hold.due) :
    Fresh (sh.completed id sqe.op res data) hold.fd due.1 due.2 := by
  unfold cqeHold at hhold
  dsimp only at hhold
  cases hop : sqe.op with
  | accept lfd =>
    rw [hop] at hhold
    dsimp only at hhold
    split at hhold
    · cases hhold
      cases hdue
    · cases hhold
  | recv own buf len =>
    rw [hop] at hhold hdata
    cases hhold
    dsimp only at hdue
    split at hdue
    · rename_i hres
      cases hdue
      refine ⟨by rw [h.recvs sqe hmem own buf len hop], data, ?_, hdata, ?_⟩
      · simp only [Shared.completed, if_pos hres, Function.update_self]
      · simp only [Shared.completed, if_pos hres, Function.update_self]
        rw [show res.toNat = data.length from hdata.symm]
        exact List.take_left
    · cases hdue
  | send own buf len =>
    rw [hop] at hhold hbefore
    cases hhold
    cases hdue
    exact h.fresh ⟨own, some (buf, len)⟩ (hbefore.mem_iff.mpr (List.mem_cons_self ..)) _ rfl
  | close own =>
    rw [hop] at hhold
    cases hhold

theorem Kept.buf_index (h : Kept id sh ring) (hmem : sqe ∈ ring.pending) :
    ∀ fd buf len, sqe.op = .recv fd buf len → buf.index = fd := by
  intro fd buf len hop
  rw [h.recvs sqe hmem fd buf len hop]

theorem Kept.complete {i : Nat} (h : Kept id sh ring) (hsqe : ring.inflight[i]? = some sqe)
    (hunused : sqe.op.isAccept → 0 ≤ res → sh.fds res.toNat = none)
    (hdata : data.length = received sqe.op res) :
    Kept id (sh.completed id sqe.op res data) (ring.complete i ⟨sqe, res⟩) := by
  rcases holds_complete ⟨sqe, res⟩ hsqe with ⟨others, hbefore, hafter⟩
  have hmem : sqe ∈ ring.pending :=
    List.mem_append_left _ (List.mem_append_right _ (List.mem_of_getElem? hsqe))
  constructor
  case one =>
    intro fd
    have hone := h.one fd
    rw [held_perm _ hbefore, held_append] at hone
    rw [held_perm _ hafter, held_append]
    exact one_completed hone hunused
  case recvs =>
    rw [completed_buffs]
    exact fun own hown => h.recvs own ((IoRing.pending_complete hsqe).mem_iff.mp hown)
  case fresh =>
    intro hold hhold due hdue
    rcases List.mem_append.mp (hafter.mem_iff.mp hhold) with hnew | hother
    · exact fresh_completed h hmem hbefore hdata (Option.mem_toList.mp hnew) hdue
    · have hbefore' := hbefore.mem_iff.mpr (List.mem_append_right _ hother)
      exact (h.fresh hold hbefore' due hdue).agree
        (completed_agree (h.buf_index hmem) (h.untouched hbefore hunused hother))

end Completion

theorem Kept.panicked (h : Kept id sh ring) (panic : Option Panic) :
    Kept id { sh with panic := panic } ring :=
  ⟨h.one, h.recvs, h.fresh⟩

variable {sh' : Shared} {l l' : Loop} {action : Action}

theorem Kept.act (h : Kept id sh l.ring) (hregistered : Registered l l.ring.pending)
    (hunused : Unused sh l.ring action)
    (hsettled : ∀ userData, action = .start userData → ∀ sqe ∈ l.ring.pending, ¬ isRecv sqe.op)
    (hact : Acts id sh l action sh' l') : Kept id sh' l'.ring := by
  cases hact with
  | started hpc hproduce =>
    rcases produce_eq_ok hproduce with ⟨prepared, hprepared, -, rfl⟩
    cases hprepared
    exact (h.started (hsettled _ rfl) sh.panic).accepting sh.lfd _
  | startPanicked => exact h.started (hsettled _ rfl) _
  | submitted | submitFailed => exact h.submit _
  | waitFailed | unknown => exact h
  | unsupported | panicked => exact h.panicked _
  | handled hpc hcq hlookup hreact hproduce =>
    rcases turned_of_handled hregistered hcq hlookup hreact hproduce with ⟨sqes, hturned⟩
    exact h.turned hcq hturned
  | completed hsqe hdata => exact h.complete hsqe (hunused _ hsqe) hdata

theorem touched_ne {other fd : Nat} {sqe : Sqe} {res : Int} (h : Kept id sh ring)
    (hsqe : sqe ∈ ring.uncompleted)
    (hunused : sqe.op.isAccept → 0 ≤ res → sh.fds res.toNat = none) (hne : other ≠ id)
    (howner : sh.fds fd = some other) : fd ∉ touched sqe.op res := by
  intro htouched
  rcases touched_spec hunused htouched with hnone | hop
  · rw [howner] at hnone
    cases hnone
  · have hmem : (⟨fd, none⟩ : Hold) ∈ holds ring :=
      List.mem_append_left _ (List.mem_filterMap.mpr ⟨sqe, hsqe, hop⟩)
    rw [h.owned hmem] at howner
    exact hne (Option.some.inj howner).symm

theorem Kept.other {other : Nat} (h : Kept other sh ring) (hown : Kept id sh l.ring)
    (hne : other ≠ id) (hunused : Unused sh l.ring action)
    (hsettled : ∀ userData, action = .start userData → ∀ sqe ∈ ring.pending, ¬ isRecv sqe.op)
    (hact : Acts id sh l action sh' l') : Kept other sh' ring := by
  cases hact with
  | started => exact h.started (hsettled _ rfl) sh.panic
  | startPanicked => exact h.started (hsettled _ rfl) _
  | submitted | submitFailed | waitFailed | unknown | handled => exact h
  | unsupported | panicked => exact h.panicked _
  | @completed i sqe res data hsqe hdata =>
    have hmem : sqe ∈ l.ring.uncompleted := List.mem_append_right _ (List.mem_of_getElem? hsqe)
    apply h.frame
    · intro fd howner
      exact completed_agree (hown.buf_index (List.mem_append_left _ hmem))
        (touched_ne hown hmem (hunused _ hsqe) hne howner)
    · rw [completed_buffs]
      exact h.recvs

end Steps

theorem kept_of_reachable {n lfd : Nat} {s : State n}
    (h : Reachable (restrict Orderly step) (State.init n lfd) s) (id : Fin n) :
    Kept id s.shared (s.loops id).ring := by
  revert id
  apply h.invariant fun s => ∀ id : Fin n, Kept id s.shared (s.loops id).ring
  · exact fun id => ⟨fun fd => Nat.zero_le _, fun _ => List.not_mem_nil.elim,
      fun _ => List.not_mem_nil.elim⟩
  · intro s event t hreach hs hstep id
    rcases restrict_eq_some.mp hstep with ⟨⟨hfair, hsettled⟩, hact⟩
    rcases step_sound hact with ⟨-, sh, l, hacts, rfl⟩
    have hstart : ∀ userData, event.action = .start userData → ∀ id : Fin n,
        ∀ sqe ∈ (s.loops id).ring.pending, ¬ isRecv sqe.op := by
      intro userData heq
      rw [heq] at hsettled
      exact hsettled
    dsimp only
    by_cases heq : id = event.id
    · rw [heq, Function.update_self]
      exact (hs event.id).act (registered_of_reachable hreach.of_restrict event.id) hfair
        (fun userData haction => hstart userData haction event.id) hacts
    · rw [Function.update_of_ne heq]
      exact (hs id).other (hs event.id) (fun hval => heq (Fin.ext hval)) hfair
        (fun userData haction => hstart userData haction id) hacts

/-- If no loop starts while a receive is pending, a send has the buffer of the last receive
on its connection, with the bytes that were received. -/
theorem send_uses_recv_buffer {n lfd : Nat} {s : State n}
    (h : Reachable (restrict Orderly step) (State.init n lfd) s) (id : Fin n) {sqe : Sqe}
    (hsqe : sqe ∈ (s.loops id).ring.pending) {fd len : Nat} {buf : Buf}
    (hop : sqe.op = .send fd buf len) :
    ∃ data, s.shared.stored fd = some (buf, data) ∧ data.length = len ∧
      (s.shared.memory buf).take len = data := by
  have hkept := kept_of_reachable h id
  have hmem : (⟨fd, some (buf, len)⟩ : Hold) ∈ holds (s.loops id).ring := by
    unfold holds
    rcases List.mem_append.mp hsqe with hsqe | hsqe
    · exact List.mem_append_left _ (List.mem_filterMap.mpr ⟨sqe, hsqe, by rw [hop]; rfl⟩)
    · rcases List.mem_map.mp hsqe with ⟨cqe, hcqe, rfl⟩
      refine List.mem_append_right _ (List.mem_filterMap.mpr ⟨cqe, hcqe, ?_⟩)
      simp only [cqeHold, hop]
  exact (hkept.fresh _ hmem (buf, len) rfl).2

theorem send_uses_recv_buffer_one_message :
    ∃ s : State 2, Reachable (restrict Orderly step) (State.init 2 3) s ∧
      ∃ data, s.shared.stored 5 = some (⟨2, 5⟩, data) ∧ data.length = 3 ∧
        (s.shared.memory ⟨2, 5⟩).take 3 = data := by
  have hrun : (run (restrict Orderly step) (State.init 2 3)
      (⟨1, .start 1⟩ :: oneConnect 0 ++ ([⟨0, .complete 1 3 [104, 105, 10]⟩,
        ⟨0, .handle [4]⟩] : List (Event 2)))).map
      (fun s => (s.loops 0).ring.sq) = some [⟨.send 5 ⟨2, 5⟩ 3, 4⟩] := by
    decide +kernel
  rcases Reachable.of_view hrun with ⟨s, hreach, hview⟩
  have hmem : (⟨.send 5 ⟨2, 5⟩ 3, 4⟩ : Sqe) ∈ (s.loops 0).ring.pending :=
    IoRing.mem_pending_of_sq (by rw [hview]; exact List.mem_cons_self ..)
  exact ⟨s, hreach, send_uses_recv_buffer hreach 0 hmem rfl⟩

/-- The second loop starts while the first receive is in flight. The bytes are received into
the old table and sent from the new one. -/
theorem late_start_sends_zeros :
    ∃ s : State 2, Reachable (restrict Fair step) (State.init 2 3) s ∧
      (s.loops 0).ring.sq = [⟨.send 5 ⟨2, 5⟩ 3, 4⟩] ∧
      s.shared.stored 5 = some (⟨1, 5⟩, [104, 105, 10]) ∧
      (s.shared.memory ⟨2, 5⟩).take 3 = [0, 0, 0] := by
  have hrun : (run (restrict Fair step) (State.init 2 3)
      (oneConnect 0 ++ ([⟨1, .start 1⟩, ⟨0, .complete 1 3 [104, 105, 10]⟩,
        ⟨0, .handle [4]⟩] : List (Event 2)))).map
      (fun s => ((s.loops 0).ring.sq, s.shared.stored 5, (s.shared.memory ⟨2, 5⟩).take 3)) =
      some ([⟨.send 5 ⟨2, 5⟩ 3, 4⟩], some (⟨1, 5⟩, [104, 105, 10]), [0, 0, 0]) := by
    decide +kernel
  rcases Reachable.of_view hrun with ⟨s, hreach, hview⟩
  simp only [Prod.mk.injEq] at hview
  exact ⟨s, hreach, hview⟩

end IoWrapper.MultiEcho.Buffers
