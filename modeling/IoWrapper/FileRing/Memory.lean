import IoWrapper.Core.Heap
import IoWrapper.FileRing.Loop

/-! The memory of `iouring/liburing.c`: what `malloc` and `posix_memalign` hand
out, what `pop_request` frees, and the pointers that stand in the queues in the
meantime. The loop around it is that of `Loop`, on pointers instead of records.
The allocator hands out any memory that is not in use, so an address can come
back; a pointer that leads nowhere, or to less than it should, ends the
process, as does the unchecked NULL of `malloc`. -/
namespace IoWrapper.FileRing.Memory
open Core.Heap Core.Vectored Blocks
open FileRing.Ring (Opcode Queues Crash Fault writeCallback ioUringCqeSeen prepare eagain)
open Loop (Request Rig Frame Reports)

/-- A block of the C heap, or the bytes of a Go slice. -/
inductive Pointer where
  | block (addr : Nat)
  | slice (data : List UInt8)
deriving DecidableEq

/-- `struct iovec`. -/
structure Iovec where
  iovBase : Pointer
  iovLen : Nat
deriving DecidableEq

/-- `struct file_info`, with the request that pushed it. -/
structure FileInfo where
  opcode : Opcode
  fileSz : Nat
  fileFd : Nat
  iovecs : List Iovec
  owner : Nat
deriving DecidableEq

/-- What stands at an address; a record whose fields are not all set is `raw`. -/
inductive Object where
  | info (fi : FileInfo)
  | raw
  | block (cells : Block UInt8)
deriving DecidableEq

/-- `user_data` is the address of the request's record. -/
structure Cqe where
  res : Int
  userData : Nat
deriving DecidableEq

structure State extends Queues Nat Cqe where
  heap : Nat → Option Object

def State.init : State := ⟨Queues.init, fun _ => none⟩

/-- A function of `Ring`, on the queues of the state. -/
def State.lift (s : State) (f : Queues Nat Cqe → Except Fault (Queues Nat Cqe)) :
    Except Fault State :=
  (f s.toQueues).map fun queues => { s with toQueues := queues }

def Pointer.cells (heap : Nat → Option Object) : Pointer → Option (Block UInt8)
  | .slice data => some (data.map some)
  | .block addr =>
    match heap addr with
    | some (.block cells) => some cells
    | _ => none

def Iovec.read (heap : Nat → Option Object) (v : Iovec) : Option Blocks.Iovec :=
  match v.iovBase.cells heap with
  | some cells => if cells.length = v.iovLen then some ⟨cells⟩ else none
  | none => none

def Iovec.addr (v : Iovec) : Option Nat :=
  match v.iovBase with
  | .block addr => some addr
  | .slice _ => none

def infoAt (heap : Nat → Option Object) (addr : Nat) : Option FileInfo :=
  match heap addr with
  | some (.info fi) => some fi
  | _ => none

def FileInfo.read (heap : Nat → Option Object) (fi : FileInfo) : Option Ring.FileInfo :=
  (fi.iovecs.mapM (Iovec.read heap)).map fun iovecs =>
    ⟨fi.opcode, fi.fileSz, fi.fileFd, iovecs, fi.owner⟩

def readAt (heap : Nat → Option Object) (addr : Nat) : Option Ring.FileInfo :=
  (infoAt heap addr).bind (FileInfo.read heap)

def FileInfo.vectors (fi : FileInfo) (length : Nat) : Option (List Iovec) :=
  if length ≤ fi.iovecs.length then some (fi.iovecs.take length) else none

def orWild {α : Type} : Option α → Except Fault α
  | some a => .ok a
  | none => .error (.crash .wild)

def readCallback (iovecs : List Iovec) (length fd : Nat) (s : State) : Except Fault State := do
  let iovecs ← orWild (iovecs.mapM (Iovec.read s.heap))
  s.lift (Ring.readCallback iovecs length fd)

/-- The branch of `pop_request` on the opcode, with the loop that frees the
blocks of a read. -/
def retire (fi : FileInfo) (res : Int) (s : State) : Except Fault State :=
  match fi.opcode with
  | .readv => do
    let iovecs ← orWild (fi.vectors (popBlocks fi.fileSz))
    let s ← readCallback iovecs (popBlocks fi.fileSz) fi.fileFd s
    let blocks ← orWild (iovecs.mapM Iovec.addr)
    let heap ← orWild (freeAll s.heap blocks)
    .ok { s with heap := heap }
  | .writev => s.lift (writeCallback res fi.fileFd)

def popRequest (s : State) : Except Fault (Int × State) :=
  match s.cq with
  | [] => .ok (-eagain, { s with toQueues := s.emit [.stderr "bad ret.\n"] })
  | cqe :: _ =>
    let s := { s with examined := s.examined ++ [cqe] }
    if cqe.res < 0 then
      .ok (cqe.res, { s with toQueues := s.emit [.stderr "bad res.\n"] })
    else do
      let fi ← orWild (infoAt s.heap cqe.userData)
      let s ← retire fi cqe.res s
      let heap ← orWild (free s.heap cqe.userData)
      .ok (0, { s with toQueues := ioUringCqeSeen s.toQueues, heap := heap })

/-- What the allocator answers to a push: `malloc`, and then `posix_memalign`
as often as it succeeds. -/
structure Grant where
  info : Option Nat
  blocks : List Nat
deriving DecidableEq

def Grant.addrs (grant : Grant) : List Nat := grant.info.toList ++ grant.blocks

def Grant.objects (grant : Grant) (fileSz : Nat) : List (Nat × Object) :=
  (grant.blocks.zip (blockLens fileSz)).map fun block => (block.1, .block (blank UInt8 block.2))

def Grant.iovecs (grant : Grant) (fileSz : Nat) : List Iovec :=
  (grant.blocks.zip (blockLens fileSz)).map fun block => ⟨.block block.1, block.2⟩

/-- After a `posix_memalign` that fails, the record and the blocks before it
stay allocated. -/
def pushReadRequest (grant : Grant) (owner fileFd fileSz : Nat) (s : State) :
    Except Fault (Int × State) :=
  match grant.info with
  | none => .error (.crash .nullInfo)
  | some addr =>
    if grant.blocks.length < (pushLayout fileSz).totalBlocks then
      .ok (-1, { s with heap := place s.heap ((addr, .raw) :: grant.objects fileSz) })
    else
      let fi : FileInfo := ⟨.readv, fileSz, fileFd, grant.iovecs fileSz, owner⟩
      let s := { s with heap := place s.heap ((addr, .info fi) :: grant.objects fileSz) }
      (s.lift (prepare addr)).map fun s => (0, s)

def pushWriteRequest (grant : Grant) (owner fileFd : Nat) (data : List UInt8) (s : State) :
    Except Fault (Int × State) :=
  match grant.info with
  | none => .error (.crash .nullInfo)
  | some addr =>
    let fi : FileInfo := ⟨.writev, data.length, fileFd, [⟨.slice data, data.length⟩], owner⟩
    let s := { s with heap := place s.heap [(addr, .info fi)] }
    (s.lift (prepare addr)).map fun s => (0, s)

def push (grant : Grant) (r : Request) (ring : State) : Except Fault (Int × State) :=
  match r.code with
  | .opCodeRead => pushReadRequest grant r.id r.fd r.size ring
  | .opCodeWrite => pushWriteRequest grant r.id r.fd r.buf ring

def FileInfo.blocks (fi : FileInfo) : List Nat := fi.iovecs.filterMap Iovec.addr

/-- The kernel's side of a transfer: what a read has read goes to the blocks
that the vectors of the request point to. -/
def transfer (fi : FileInfo) (iovecs : List Blocks.Iovec) (data : List UInt8)
    (heap : Nat → Option Object) : Nat → Option Object :=
  match fi.opcode with
  | .readv => place heap (fi.blocks.zip ((readv iovecs data).map fun v => .block v.iovBase))
  | .writev => heap

def posted (ring : State) (i addr : Nat) (res : Int) (heap : Nat → Option Object) : State :=
  { ring with
    heap := heap
    inflight := ring.inflight.eraseIdx i
    cq := ring.cq ++ [⟨res, addr⟩] }

def complete (ring : State) (i addr : Nat) (res : Int) (data : List UInt8) :
    Option (Except Fault State) :=
  match infoAt ring.heap addr, readAt ring.heap addr with
  | some fi, some seen =>
    if Reports seen res data then
      some (.ok (posted ring i addr res (transfer fi seen.iovecs data ring.heap)))
    else none
  | _, _ => some (.error (.crash .wild))

def blocksOf (r : Request) : Nat :=
  match r.code with
  | .opCodeRead => (pushLayout r.size).totalBlocks
  | .opCodeWrite => 0

/-- The allocator hands out memory that is not in use, no piece of it twice. -/
structure Grant.Fresh (grant : Grant) (heap : Nat → Option Object) (r : Request) : Prop where
  distinct : grant.addrs.Nodup
  unused : ∀ addr ∈ grant.addrs, heap addr = none
  asked : grant.blocks.length ≤ blocksOf r

instance (grant : Grant) (heap : Nat → Option Object) (r : Request) :
    Decidable (grant.Fresh heap r) :=
  decidable_of_iff (grant.addrs.Nodup ∧ (∀ addr ∈ grant.addrs, heap addr = none) ∧
      grant.blocks.length ≤ blocksOf r)
    ⟨fun h => ⟨h.1, h.2.1, h.2.2⟩, fun h => ⟨h.distinct, h.unused, h.asked⟩⟩

/-- The ring whose entries are addresses. -/
def rig : Rig State Nat Cqe Grant where
  queues := State.toQueues
  withQueues ring queues := { ring with toQueues := queues }
  grants ring r grant := decide (grant.Fresh ring.heap r)
  push := push
  complete ring i res data := ring.inflight[i]?.bind fun addr => complete ring i addr res data
  popRequest := popRequest
  owner ring := ring.cq.head?.bind fun cqe => (infoAt ring.heap cqe.userData).map FileInfo.owner

abbrev Sys := Frame State

def Sys.init : Sys := ⟨State.init, .select, 0, 0, [], [], 0, [], []⟩

def Sys.crash (s : Sys) : Option Crash :=
  match s.pc with
  | .faulted (.crash crash) => some crash
  | _ => none

/-- The events of the loop, of which taking a request off `submitChan` comes
with the answers of the allocator. -/
inductive Event where
  | loop (event : Loop.Event)
  | receive (i : Nat) (grant : Grant)

def step (s : Sys) (event : Event) : Option Sys :=
  if s.crash.isSome then none else
  match event with
  | .loop event => s.step rig event
  | .receive i grant => s.take rig i grant

end IoWrapper.FileRing.Memory
