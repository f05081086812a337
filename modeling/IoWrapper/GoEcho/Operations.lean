import IoWrapper.Core.Machine
import IoWrapper.Core.Traffic

/-! What the three Go servers on io_uring have in common: the operations, the
`EventInfo` that goes with each, and the functions that prepare a submission entry. -/
namespace IoWrapper.GoEcho.Operations
open Core.Machine Core.Traffic

def maxConns : Nat := 10240
def maxMsgLen : Nat := 2048
def entries : Nat := 2048
def ebadf : Int := 9

inductive EType where
  | unknow
  | accept
  | read
  | write
  | providBuff
  | close
deriving DecidableEq

structure EventInfo where
  lfd : Nat
  cfd : Nat
  etype : EType
deriving DecidableEq

/-- A place in a table of buffers; the tables are numbered by the calls of `InitBuffs`. -/
structure Buf where
  table : Nat
  index : Nat
deriving DecidableEq

inductive Op where
  | accept (fd : Nat)
  | recv (fd : Nat) (buf : Buf) (len : Nat)
  | send (fd : Nat) (buf : Buf) (len : Nat)
  | close (fd : Nat)
deriving DecidableEq

/-- A submission entry; its `user_data` is the address of its `EventInfo`. -/
structure Sqe where
  op : Op
  userData : Nat
deriving DecidableEq

abbrev Cqe := Completion Sqe

inductive Request where
  | accept (lfd : Nat)
  | recv (cfd : Nat)
  | send (cfd msgSize : Nat)
  | close (cfd : Nat)
deriving DecidableEq

def Op.request : Op → Request
  | .accept fd => .accept fd
  | .recv fd _ _ => .recv fd
  | .send fd _ len => .send fd len
  | .close fd => .close fd

/-- The `EventInfo` with the type and the descriptor of what is asked for. -/
def Request.info : Request → EventInfo
  | .accept lfd => ⟨lfd, 0, .accept⟩
  | .recv cfd => ⟨0, cfd, .read⟩
  | .send cfd _ => ⟨0, cfd, .write⟩
  | .close cfd => ⟨0, cfd, .close⟩

def Op.info (op : Op) : EventInfo := op.request.info

def Request.isAccept : Request → Bool
  | .accept _ => true
  | .recv _ | .send .. | .close _ => false

def Op.isAccept (op : Op) : Bool := op.request.isAccept

inductive Panic where
  | indexOutOfRange
  | nilSqe
  | unsupportedType
deriving DecidableEq

/-- A call ends in a panic, or it cannot be one with this address. -/
inductive Stop where
  | panic (panic : Panic)
  | impossible
deriving DecidableEq

/-- The calls that the switch of a loop makes on a completion of what was asked for. -/
def calls (react : EventInfo → Int → Except Panic (List Request)) (request : Request)
    (res : Int) : List Request :=
  (react request.info res).toOption.getD []

theorem calls_eq {react : EventInfo → Int → Except Panic (List Request)} {request : Request}
    {res : Int} {requests : List Request} (h : react request.info res = .ok requests) :
    calls react request res = requests := by
  rw [calls, h]
  rfl

/-- An entry before it has its `user_data`. -/
structure Prepared where
  op : Op
  info : EventInfo
deriving DecidableEq

/-- `buffs[cfd]`. -/
def buff (buffs cfd : Nat) : Except Panic Buf :=
  if cfd < maxConns + 32 then .ok ⟨buffs, cfd⟩ else .error .indexOutOfRange

def produceSocketListenAcceptSqe (lfd : Nat) : Except Panic Prepared :=
  .ok ⟨.accept lfd, ⟨lfd, 0, .accept⟩⟩

def produceSocketConnRecvSqe (buffs cfd : Nat) : Except Panic Prepared := do
  let buf ← buff buffs cfd
  .ok ⟨.recv cfd buf maxMsgLen, ⟨0, cfd, .read⟩⟩

def produceSocketConnSendSqe (buffs cfd msgSize : Nat) : Except Panic Prepared := do
  let buf ← buff buffs cfd
  .ok ⟨.send cfd buf msgSize, ⟨0, cfd, .write⟩⟩

def produceSocketConnCloseSqe (cfd : Nat) : Except Panic Prepared :=
  .ok ⟨.close cfd, ⟨0, cfd, .close⟩⟩

def Request.prepare (buffs : Nat) : Request → Except Panic Prepared
  | .accept lfd => produceSocketListenAcceptSqe lfd
  | .recv cfd => produceSocketConnRecvSqe buffs cfd
  | .send cfd msgSize => produceSocketConnSendSqe buffs cfd msgSize
  | .close cfd => produceSocketConnCloseSqe cfd

/-- Calls one after the other, each with the address of its new `EventInfo`. -/
def produceEach {σ : Type} (produce : σ → Request → Nat → Except Stop σ) (s : σ) :
    List Request → List Nat → Except Stop σ
  | [], _ => .ok s
  | request :: requests, userData :: addresses => do
    let next ← produce s request userData
    produceEach produce next requests addresses
  | _ :: _, [] => .error .impossible

def Op.buf : Op → Option Buf
  | .recv _ buf _ | .send _ buf _ => some buf
  | .accept _ | .close _ => none

theorem buff_eq_ok {buffs cfd : Nat} {buf : Buf} (h : buff buffs cfd = .ok buf) :
    buf = ⟨buffs, cfd⟩ := by
  unfold buff at h
  split at h
  · cases h
    rfl
  · cases h

theorem prepare_eq_ok {buffs : Nat} {request : Request} {prepared : Prepared}
    (h : request.prepare buffs = .ok prepared) :
    prepared.op.request = request ∧ prepared.info = prepared.op.info ∧
      ∀ buf ∈ prepared.op.buf, buf = ⟨buffs, prepared.info.cfd⟩ := by
  cases request with
  | accept lfd =>
    cases h
    exact ⟨rfl, rfl, fun buf hbuf => nomatch hbuf⟩
  | recv cfd =>
    rcases bind_eq_ok.mp h with ⟨buf, hbuf, hprepared⟩
    cases hprepared
    exact ⟨rfl, rfl, by simp [Op.buf, buff_eq_ok hbuf]⟩
  | send cfd msgSize =>
    rcases bind_eq_ok.mp h with ⟨buf, hbuf, hprepared⟩
    cases hprepared
    exact ⟨rfl, rfl, by simp [Op.buf, buff_eq_ok hbuf]⟩
  | close cfd =>
    cases h
    exact ⟨rfl, rfl, fun buf hbuf => nomatch hbuf⟩

/-- `buffs` has no place for the descriptor. -/
def Request.noBuffer : Request → Bool
  | .recv cfd | .send cfd _ => decide (maxConns + 32 ≤ cfd)
  | .accept _ | .close _ => false

theorem buff_of_lt {buffs cfd : Nat} (h : ¬maxConns + 32 ≤ cfd) :
    buff buffs cfd = .ok ⟨buffs, cfd⟩ :=
  if_pos (Nat.not_le.mp h)

theorem buff_of_le {buffs cfd : Nat} (h : maxConns + 32 ≤ cfd) :
    buff buffs cfd = .error .indexOutOfRange :=
  if_neg (Nat.not_lt.mpr h)

theorem prepare_ok_iff {buffs : Nat} {request : Request} :
    (∃ prepared, request.prepare buffs = .ok prepared) ↔ request.noBuffer = false := by
  cases request with
  | accept | close => exact ⟨fun _ => rfl, fun _ => ⟨_, rfl⟩⟩
  | recv cfd | send cfd =>
    simp only [Request.noBuffer, decide_eq_false_iff_not]
    by_cases hcfd : maxConns + 32 ≤ cfd
    · simp [Request.prepare, produceSocketConnRecvSqe, produceSocketConnSendSqe, buff_of_le hcfd,
        hcfd, bind_eq_ok]
    · exact ⟨fun _ => hcfd, fun _ => ⟨_, bind_eq_ok.mpr ⟨_, buff_of_lt hcfd, rfl⟩⟩⟩

theorem prepare_ne_unsupported {buffs : Nat} {request : Request} :
    request.prepare buffs ≠ .error .unsupportedType := by
  have hbuff : ∀ cfd, buff buffs cfd ≠ .error .unsupportedType := by
    intro cfd
    unfold buff
    split <;> simp
  intro h
  cases request with
  | accept lfd => cases h
  | recv cfd =>
    rcases bind_eq_error.mp h with h | ⟨buf, -, h⟩
    · exact hbuff cfd h
    · cases h
  | send cfd msgSize =>
    rcases bind_eq_error.mp h with h | ⟨buf, -, h⟩
    · exact hbuff cfd h
    · cases h
  | close cfd => cases h

theorem produceEach_invariant {σ : Type} {produce : σ → Request → Nat → Except Stop σ}
    (inv : σ → Prop) {s next : σ} {requests : List Request} {addresses : List Nat}
    (h : produceEach produce s requests addresses = .ok next) (hs : inv s)
    (hproduce : ∀ s request userData next, request ∈ requests → inv s →
      produce s request userData = .ok next → inv next) : inv next := by
  induction requests generalizing s addresses with
  | nil =>
    cases h
    exact hs
  | cons request requests ih =>
    cases addresses with
    | nil => cases h
    | cons userData addresses =>
      rcases bind_eq_ok.mp h with ⟨middle, hmiddle, hrest⟩
      have hinv := hproduce s request userData middle (List.mem_cons_self ..) hs hmiddle
      exact ih hrest hinv fun s request userData next hrequest =>
        hproduce s request userData next (List.mem_cons_of_mem _ hrequest)

theorem produceEach_panic {σ : Type} {produce : σ → Request → Nat → Except Stop σ} {s : σ}
    {requests : List Request} {addresses : List Nat} {panic : Panic}
    (h : produceEach produce s requests addresses = .error (.panic panic)) :
    ∃ s request userData, produce s request userData = .error (.panic panic) := by
  induction requests generalizing s addresses with
  | nil => cases h
  | cons request requests ih =>
    cases addresses with
    | nil => cases h
    | cons userData addresses =>
      rcases bind_eq_error.mp h with h | ⟨next, -, h⟩
      · exact ⟨s, request, userData, h⟩
      · exact ih h

end IoWrapper.GoEcho.Operations
