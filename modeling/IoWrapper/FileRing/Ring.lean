import IoWrapper.FileRing.Blocks
import Mathlib.Logic.Function.Basic

/-! The ring and its callbacks: the C functions of `iouring/liburing.c` with
`read_callback`, `write_callback` and `submitAndPop` of `iouring/liburing.go`.
A pointer to a `file_info` is the record itself, and what the package shows to
the outside (callbacks, closed files, errors) is a log. -/
namespace IoWrapper.FileRing.Ring
open Blocks

def queueDepth : Nat := 16

/-- `syscall.EAGAIN`. -/
def eagain : Int := 11

inductive Opcode where
  | readv
  | writev
deriving DecidableEq

/-- `struct file_info`. The owner is the request that pushed it; the source
does not keep it and no modelled function branches on it. -/
structure FileInfo where
  opcode : Opcode
  fileSz : Nat
  fileFd : Nat
  iovecs : List Iovec
  owner : Nat
deriving DecidableEq

structure Cqe where
  res : Int
  data : FileInfo
deriving DecidableEq

/-- `*os.File`, named by the request that opened it. -/
structure File where
  id : Nat
  fd : Nat
deriving DecidableEq

/-- `cbInfo`; a nil function is `none`. -/
structure CbInfo where
  readCb : Option Nat
  writeCb : Option Nat
  close : Option File
deriving DecidableEq

inductive Effect where
  | stderr (text : String)
  | closeFile (id : Nat)
  | readCb (id : Nat) (buf : List Cell)
  | writeCb (id : Nat) (written : Int)
  | err (text : String) (errno : Int) (about : Option Nat)
deriving DecidableEq

/-- What a pointer that leads nowhere and the unchecked NULL of `malloc` come to. There is no
such thing on records; it is for the memory that they stand in. -/
inductive Crash where
  | wild
  | nullInfo
deriving DecidableEq

inductive Fault where
  | nullSqe
  | nilCall
  | goBytesRange
  | crash (crash : Crash)
deriving DecidableEq

/-- The queues, with entries and completions of any kind, and what `liburing.go` keeps. -/
structure Queues (ι κ : Type) where
  sq : List ι
  inflight : List ι
  cq : List κ
  cqHead : Nat
  examined : List κ
  cbMap : Nat → Option CbInfo
  openFds : List Nat
  log : List Effect

abbrev State := Queues FileInfo Cqe

section Functions

variable {ι κ : Type}

def Queues.init : Queues ι κ := ⟨[], [], [], 0, [], fun _ => none, [], []⟩

def Queues.emit (s : Queues ι κ) (effects : List Effect) : Queues ι κ :=
  { s with log := s.log ++ effects }

/-- `errChan <- fmt.Errorf(text: errno)`, with a reader on the channel. -/
def Queues.sendErr (s : Queues ι κ) (text : String) (errno : Int) (about : Option Nat) :
    Queues ι κ :=
  s.emit [.err text errno about]

def Queues.openFd (s : Queues ι κ) (fd : Nat) : Queues ι κ := { s with openFds := fd :: s.openFds }

/-- `cbMap[fd] = info`. -/
def Queues.register (s : Queues ι κ) (fd : Nat) (info : CbInfo) : Queues ι κ :=
  { s with cbMap := Function.update s.cbMap fd (some info) }

def Queues.taken (s : Queues ι κ) (count : Nat) : Queues ι κ :=
  { s with
    sq := s.sq.drop count
    inflight := s.inflight ++ s.sq.take count }

def Queues.finished (s : Queues ι κ) (fd : Nat) (file : File) (effect : Effect) : Queues ι κ :=
  { s with
    log := s.log ++ [.closeFile file.id, effect]
    openFds := s.openFds.erase file.fd
    cbMap := Function.update s.cbMap fd none }

/-- The locked section shared by both callbacks: close the file, call the
callback, delete the entry. A missing entry is the zero `cbInfo`, and calling a
nil function panics. -/
def finish (fd : Nat) (call : CbInfo → Option Effect) (s : Queues ι κ) :
    Except Fault (Queues ι κ) :=
  let info := (s.cbMap fd).getD ⟨none, none, none⟩
  match info.close, call info with
  | some file, some effect => .ok (s.finished fd file effect)
  | _, _ => .error .nilCall

def readCallback (iovecs : List Iovec) (length fd : Nat) (s : Queues ι κ) :
    Except Fault (Queues ι κ) :=
  match gather iovecs length with
  | none => .error .goBytesRange
  | some buf => finish fd (fun info => info.readCb.map fun id => .readCb id buf) s

def writeCallback (written : Int) (fd : Nat) (s : Queues ι κ) : Except Fault (Queues ι κ) :=
  finish fd (fun info => info.writeCb.map fun id => .writeCb id written) s

def ioUringCqeSeen (s : Queues ι κ) : Queues ι κ :=
  { s with cq := s.cq.tail, cqHead := s.cqHead + 1 }

/-- `io_uring_get_sqe` followed by the preparation of the entry it returns; a
full queue returns NULL, which the preparation dereferences. -/
def prepare (entry : ι) (s : Queues ι κ) : Except Fault (Queues ι κ) :=
  if s.sq.length < queueDepth then .ok { s with sq := s.sq ++ [entry] } else .error .nullSqe

end Functions

abbrev State.init : State := Queues.init

/-- The branch of `pop_request` on the opcode of the completed request. -/
def callBack (cqe : Cqe) (s : State) : Except Fault State :=
  let fi := cqe.data
  match fi.opcode with
  | .readv => readCallback fi.iovecs (popBlocks fi.fileSz) fi.fileFd s
  | .writev => writeCallback cqe.res fi.fileFd s

def popRequest (s : State) : Except Fault (Int × State) :=
  match s.cq with
  | [] => .ok (-eagain, s.emit [.stderr "bad ret.\n"])
  | cqe :: _ =>
    let s := { s with examined := s.examined ++ [cqe] }
    if cqe.res < 0 then
      .ok (cqe.res, s.emit [.stderr "bad res.\n"])
    else
      match callBack cqe s with
      | .error fault => .error fault
      | .ok s => .ok (0, ioUringCqeSeen s)

def pushReadRequest (memalign : Nat → Bool) (owner fileFd fileSz : Nat) (s : State) :
    Except Fault (Int × State) :=
  match populate memalign (pushLayout fileSz) with
  | none => .ok (-1, s)
  | some iovecs => (prepare ⟨.readv, fileSz, fileFd, iovecs, owner⟩ s).map fun s => (0, s)

def pushWriteRequest (owner fileFd : Nat) (data : List UInt8) (s : State) :
    Except Fault (Int × State) :=
  (prepare ⟨.writev, data.length, fileFd, [⟨data.map some⟩], owner⟩ s).map fun s => (0, s)

/-- The completion the kernel posts for a request. A read has filled the
blocks of its request, in order, with the bytes it read. -/
def completion (fi : FileInfo) (res : Int) (data : List UInt8) : Cqe :=
  match fi.opcode with
  | .readv => ⟨res, { fi with iovecs := readv fi.iovecs data }⟩
  | .writev => ⟨res, fi⟩

/-- One iteration of the loop of `submitAndPop`, after `pop_request` has returned. -/
def afterPop {ρ : Type} (sendErr : ρ → String → Int → Option Nat → ρ) (queueSize : Nat)
    (about : Option Nat) (popped : Int × ρ) : Nat × ρ :=
  if popped.1 ≠ 0 then
    (if -popped.1 ≠ eagain then queueSize - 1 else queueSize,
      sendErr popped.2 "error while popping" (-popped.1) about)
  else
    (queueSize - 1, popped.2)

def popIteration (queueSize : Nat) (s : State) : Except Fault (Nat × State) :=
  (popRequest s).map (afterPop Queues.sendErr queueSize (s.cq.head?.map fun cqe => cqe.data.owner))

/-- The loop of `submitAndPop`; it has no bound in the source, and `none` says
that it has not come to an end within the fuel. -/
def popLoop : Nat → Nat → State → Option (Except Fault State)
  | 0, _, _ => none
  | _ + 1, 0, s => some (.ok s)
  | fuel + 1, queueSize + 1, s =>
    match popIteration (queueSize + 1) s with
    | .error fault => some (.error fault)
    | .ok (queueSize, s) => popLoop fuel queueSize s

/-- `submitAndPop`, given what `queue_submit` returned. -/
def submitAndPop (fuel queueSize : Nat) (ret : Int) (s : State) :
    Option (Except Fault State) :=
  if ret < 0 then
    some (.ok (s.sendErr "error while submitting" (-ret) none))
  else
    popLoop fuel queueSize s

theorem prepare_eq_ok {fi : FileInfo} {s t : State} :
    prepare fi s = .ok t ↔ s.sq.length < queueDepth ∧ t = { s with sq := s.sq ++ [fi] } := by
  unfold prepare
  split
  · rename_i h
    simp [h, eq_comm]
  · rename_i h
    simp [h]

theorem pushReadRequest_eq_ok {memalign : Nat → Bool} {owner fileFd fileSz : Nat}
    {s t : State} (h : pushReadRequest memalign owner fileFd fileSz s = .ok (0, t)) :
    s.sq.length < queueDepth ∧
      t = { s with sq := s.sq ++ [⟨.readv, fileSz, fileFd, blankIovecs fileSz, owner⟩] } := by
  unfold pushReadRequest at h
  split at h
  · cases h
  · rename_i iovecs hpop
    rw [populate_eq_some hpop] at h
    cases hprep : prepare ⟨.readv, fileSz, fileFd, blankIovecs fileSz, owner⟩ s with
    | error fault => simp [hprep, Except.map] at h
    | ok u =>
      simp only [hprep, Except.map, Except.ok.injEq, Prod.mk.injEq, true_and] at h
      rw [← h]
      exact prepare_eq_ok.mp hprep

def callOf (cqe : Cqe) (info : CbInfo) : Option Effect :=
  match cqe.data.opcode with
  | .readv => (gather cqe.data.iovecs (popBlocks cqe.data.fileSz)).bind fun buf =>
      info.readCb.map fun id => .readCb id buf
  | .writev => info.writeCb.map fun id => .writeCb id cqe.res

/-- The state after `pop_request` has taken a completion off the queue. -/
def State.popped (s : State) (cqe : Cqe) (file : File) (effect : Effect) : State :=
  { s with
    cq := s.cq.tail
    cqHead := s.cqHead + 1
    examined := s.examined ++ [cqe]
    cbMap := Function.update s.cbMap cqe.data.fileFd none
    openFds := s.openFds.erase file.fd
    log := s.log ++ [.closeFile file.id, effect] }

/-- The state after `pop_request` has turned down a completion, which stays at
the head of the queue. -/
def State.rejected (s : State) (cqe : Cqe) : State :=
  { s with
    examined := s.examined ++ [cqe]
    log := s.log ++ [.stderr "bad res.\n"] }

def State.spun (s : State) : State :=
  s.emit [.stderr "bad ret.\n", .err "error while popping" eagain none]

def State.refused (s : State) (cqe : Cqe) : State :=
  { s with
    examined := s.examined ++ [cqe]
    log := s.log ++ [.stderr "bad res.\n",
      .err "error while popping" (-cqe.res) (some cqe.data.owner)] }

theorem finish_eq_ok {ι κ : Type} {fd : Nat} {call : CbInfo → Option Effect}
    {s t : Queues ι κ} :
    finish fd call s = .ok t ↔ ∃ info file effect, s.cbMap fd = some info ∧
      info.close = some file ∧ call info = some effect ∧ t = s.finished fd file effect := by
  unfold finish
  refine ⟨fun h => ?_, fun h => ?_⟩
  · dsimp only at h
    split at h
    · rename_i file effect hclose hcall
      cases hentry : s.cbMap fd with
      | none => simp [hentry] at hclose
      | some info =>
        simp only [hentry, Option.getD_some] at hclose hcall
        exact ⟨info, file, effect, rfl, hclose, hcall, (Except.ok.inj h).symm⟩
    · cases h
  · rcases h with ⟨info, file, effect, hentry, hclose, hcall, ht⟩
    simp only [hentry, Option.getD_some, hclose, hcall, ht]

theorem callBack_eq_ok {cqe : Cqe} {s t : State} :
    callBack cqe s = .ok t ↔ ∃ info file effect, s.cbMap cqe.data.fileFd = some info ∧
      info.close = some file ∧ callOf cqe info = some effect ∧
      t = s.finished cqe.data.fileFd file effect := by
  unfold callBack callOf readCallback writeCallback
  cases hop : cqe.data.opcode with
  | readv =>
    cases hbuf : gather cqe.data.iovecs (popBlocks cqe.data.fileSz) with
    | none => simp only [hop, hbuf, Option.bind_none, reduceCtorEq, and_false, false_and,
        exists_false]
    | some buf => simp only [hop, hbuf, finish_eq_ok, Option.bind_some]
  | writev => simp only [hop, finish_eq_ok]

theorem finish_fault {fd : Nat} {call : CbInfo → Option Effect} {s : State} {fault : Fault}
    (h : finish fd call s = .error fault) : fault = .nilCall := by
  unfold finish at h
  dsimp only at h
  split at h
  · cases h
  · cases h
    rfl

theorem callBack_fault {cqe : Cqe} {s : State} {fault : Fault}
    (h : callBack cqe s = .error fault) : fault = .nilCall ∨ fault = .goBytesRange := by
  unfold callBack readCallback writeCallback at h
  dsimp only at h
  split at h
  · split at h
    · cases h
      exact Or.inr rfl
    · exact Or.inl (finish_fault h)
  · exact Or.inl (finish_fault h)

theorem popRequest_cases {s t : State} {ret : Int} (h : popRequest s = .ok (ret, t)) :
    (s.cq = [] ∧ ret = -eagain ∧ t = s.emit [.stderr "bad ret.\n"]) ∨
    (∃ cqe rest, s.cq = cqe :: rest ∧ cqe.res < 0 ∧ ret = cqe.res ∧ t = s.rejected cqe) ∨
    (∃ cqe rest info file effect, s.cq = cqe :: rest ∧ 0 ≤ cqe.res ∧
      s.cbMap cqe.data.fileFd = some info ∧ info.close = some file ∧
      callOf cqe info = some effect ∧ ret = 0 ∧ t = s.popped cqe file effect) := by
  unfold popRequest at h
  split at h
  · rename_i hcq
    cases h
    exact Or.inl ⟨hcq, rfl, rfl⟩
  · rename_i cqe rest hcq
    dsimp only at h
    split at h
    · rename_i hneg
      cases h
      exact Or.inr (Or.inl ⟨cqe, rest, hcq, hneg, rfl, rfl⟩)
    · rename_i hneg
      split at h
      · cases h
      · rename_i u hback
        cases h
        rcases callBack_eq_ok.mp hback with ⟨info, file, effect, hentry, hclose, hcall, hu⟩
        subst hu
        exact Or.inr (Or.inr ⟨cqe, rest, info, file, effect, hcq, by omega, hentry, hclose,
          hcall, rfl, rfl⟩)

theorem popRequest_of_neg {s : State} {cqe : Cqe} {rest : List Cqe}
    (hcq : s.cq = cqe :: rest) (hneg : cqe.res < 0) :
    popRequest s = .ok (cqe.res, s.rejected cqe) := by
  unfold popRequest
  rw [hcq]
  dsimp only
  rw [if_pos hneg, State.rejected, ← hcq]
  rfl

theorem popRequest_of_entry {s : State} {cqe : Cqe} {rest : List Cqe} {info : CbInfo}
    {file : File} {effect : Effect} (hcq : s.cq = cqe :: rest) (hres : 0 ≤ cqe.res)
    (hentry : s.cbMap cqe.data.fileFd = some info) (hclose : info.close = some file)
    (hcall : callOf cqe info = some effect) :
    popRequest s = .ok (0, s.popped cqe file effect) := by
  have hback := callBack_eq_ok.mpr ⟨info, file, effect,
    (show ({ s with examined := s.examined ++ [cqe] } : State).cbMap _ = _ from hentry),
    hclose, hcall, rfl⟩
  unfold popRequest
  split
  · rename_i hnil
    simp [hnil] at hcq
  · rename_i head tail hcons
    rw [hcq] at hcons
    cases hcons
    rw [if_neg (by omega), hback]
    rfl

theorem popIteration_cases {n m : Nat} {s t : State} (h : popIteration n s = .ok (m, t)) :
    (s.cq = [] ∧ m = n ∧ t = s.spun) ∨
    (∃ cqe rest, s.cq = cqe :: rest ∧ cqe.res < 0 ∧
      m = (if -cqe.res ≠ eagain then n - 1 else n) ∧ t = s.refused cqe) ∨
    (∃ cqe rest info file effect, s.cq = cqe :: rest ∧ 0 ≤ cqe.res ∧
      s.cbMap cqe.data.fileFd = some info ∧ info.close = some file ∧
      callOf cqe info = some effect ∧ m = n - 1 ∧ t = s.popped cqe file effect) := by
  unfold popIteration at h
  cases hpop : popRequest s with
  | error fault =>
    rw [hpop] at h
    cases h
  | ok after =>
    rcases after with ⟨ret, u⟩
    rw [hpop, Except.map, Except.ok.injEq, afterPop] at h
    rcases popRequest_cases hpop with ⟨hcq, hret, hu⟩ | ⟨cqe, rest, hcq, hneg, hret, hu⟩ |
      ⟨cqe, rest, info, file, effect, hcq, hres, hentry, hclose, hcall, hret, hu⟩
    · subst hret hu
      simp only [hcq, eagain] at h
      cases h
      refine Or.inl ⟨hcq, rfl, ?_⟩
      simp [State.spun, Queues.sendErr, Queues.emit, eagain]
    · subst hret hu
      rw [if_pos (by omega), hcq] at h
      cases h
      refine Or.inr (Or.inl ⟨cqe, rest, hcq, hneg, rfl, ?_⟩)
      simp [State.refused, State.rejected, Queues.sendErr, Queues.emit]
    · subst hret hu
      cases h
      exact Or.inr (Or.inr ⟨cqe, rest, info, file, effect, hcq, hres, hentry, hclose, hcall,
        rfl, rfl⟩)

theorem popIteration_fault {n : Nat} {s : State} {fault : Fault}
    (h : popIteration n s = .error fault) : fault = .nilCall ∨ fault = .goBytesRange := by
  unfold popIteration at h
  cases hpop : popRequest s with
  | ok after =>
    rw [hpop] at h
    cases h
  | error found =>
    rw [hpop] at h
    cases h
    unfold popRequest at hpop
    split at hpop
    · cases hpop
    · dsimp only at hpop
      split at hpop
      · cases hpop
      · split at hpop
        · rename_i hback
          cases hpop
          exact callBack_fault hback
        · cases hpop

theorem popIteration_of_entry {n : Nat} {s : State} {cqe : Cqe} {rest : List Cqe}
    {info : CbInfo} {file : File} {effect : Effect} (hcq : s.cq = cqe :: rest)
    (hres : 0 ≤ cqe.res) (hentry : s.cbMap cqe.data.fileFd = some info)
    (hclose : info.close = some file) (hcall : callOf cqe info = some effect) :
    popIteration n s = .ok (n - 1, s.popped cqe file effect) := by
  unfold popIteration
  rw [popRequest_of_entry hcq hres hentry hclose hcall]
  rfl

end IoWrapper.FileRing.Ring
