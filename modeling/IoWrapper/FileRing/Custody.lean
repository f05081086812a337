import IoWrapper.Core.Collections
import IoWrapper.Core.Pool
import IoWrapper.FileRing.Memory

/-! Who owns the memory. The memory in use is cut up among the requests in the
ring, each with its record and its blocks, and what failed pushes have left
behind; no two of these have an address in common. That is what keeps a pointer
good until it is popped, and each function on the memory then does what the one
of `Ring` does on the records themselves. -/
namespace IoWrapper.FileRing.Custody
open Core.Collections Core.Heap Core.Machine Core.Pool Core.Vectored Memory
open Blocks (popBlocks popBlocks_eq pushLayout populate readv blockLens blankIovecs gather)
open FileRing.Ring (File CbInfo Effect ioUringCqeSeen)
open Loop (Request)

/-- The record at an address, with the blocks that its vectors point to. -/
def footprint (heap : Nat → Option Object) (addr : Nat) : List Nat :=
  addr :: ((infoAt heap addr).elim [] FileInfo.blocks)

def pending (s : State) : List Nat := s.sq ++ s.inflight ++ s.cq.map Cqe.userData

/-- The vectors of a read are all blocks, as many as `pop_request` frees; a
write has none. -/
def Laid (fi : FileInfo) : Prop :=
  match fi.opcode with
  | .readv => fi.iovecs.map Iovec.addr = fi.blocks.map some ∧
      fi.iovecs.length = popBlocks fi.fileSz
  | .writev => fi.blocks = []

/-- The memory in use is that of the requests in the ring and what has been
left behind. -/
structure Owned (s : State) (lost : List Nat) : Prop where
  holds : Holds s.heap ((pending s).flatMap (footprint s.heap) ++ lost)
  laid : ∀ addr ∈ pending s, ∀ fi ∈ infoAt s.heap addr, Laid fi

/-- The pointers in the queues lead to the records in the queues of the ring,
and all the rest is the same. -/
structure Shows (p : State) (s : Ring.State) : Prop where
  sq : p.sq.map (readAt p.heap) = s.sq.map some
  inflight : p.inflight.map (readAt p.heap) = s.inflight.map some
  cq : p.cq.map (fun cqe => (cqe.res, readAt p.heap cqe.userData)) =
    s.cq.map fun cqe => (cqe.res, some cqe.data)
  cqHead : p.cqHead = s.cqHead
  cbMap : p.cbMap = s.cbMap
  openFds : p.openFds = s.openFds
  log : p.log = s.log

section Reading

variable {heap heap' : Nat → Option Object} {addr : Nat} {fi : FileInfo} {seen : Ring.FileInfo}

theorem infoAt_eq_some : infoAt heap addr = some fi ↔ heap addr = some (.info fi) := by
  unfold infoAt
  split
  · rename_i other hother
    simp [hother]
  · rename_i hother
    simp only [reduceCtorEq, false_iff]
    exact hother fi

theorem readAt_eq_some : readAt heap addr = some seen ↔ ∃ fi, infoAt heap addr = some fi ∧
    fi.iovecs.map (Iovec.read heap) = seen.iovecs.map some ∧ seen.opcode = fi.opcode ∧
      seen.fileSz = fi.fileSz ∧ seen.fileFd = fi.fileFd ∧ seen.owner = fi.owner := by
  unfold readAt FileInfo.read
  simp only [Option.bind_eq_some_iff, Option.map_eq_some_iff, mapM_eq_some_iff]
  constructor
  · rintro ⟨fi, hfi, iovecs, hread, rfl⟩
    exact ⟨fi, hfi, hread, rfl, rfl, rfl, rfl⟩
  · rintro ⟨fi, hfi, hread, hop, hsz, hfd, howner⟩
    refine ⟨fi, hfi, seen.iovecs, hread, ?_⟩
    rw [← hop, ← hsz, ← hfd, ← howner]

theorem read_congr {v : Iovec} (h : ∀ addr ∈ v.addr, heap' addr = heap addr) :
    v.read heap' = v.read heap := by
  unfold Iovec.read Pointer.cells
  unfold Iovec.addr at h
  cases hbase : v.iovBase with
  | slice data => rfl
  | block addr =>
    rw [hbase] at h
    dsimp only
    rw [h addr rfl]

theorem infoAt_of_eq (h : heap' addr = heap addr) : infoAt heap' addr = infoAt heap addr := by
  rw [infoAt, h, infoAt]

theorem infoAt_congr (h : ∀ other ∈ footprint heap addr, heap' other = heap other) :
    infoAt heap' addr = infoAt heap addr :=
  infoAt_of_eq (h addr List.mem_cons_self)

theorem readAt_congr (h : ∀ other ∈ footprint heap addr, heap' other = heap other) :
    readAt heap' addr = readAt heap addr := by
  unfold readAt
  rw [infoAt_congr h]
  cases hfi : infoAt heap addr with
  | none => rfl
  | some fi =>
    simp only [Option.bind_some, FileInfo.read]
    congr 1
    rw [footprint, hfi] at h
    have hvecs : fi.iovecs.map (Iovec.read heap') = fi.iovecs.map (Iovec.read heap) := by
      apply List.map_congr_left
      intro v hv
      apply read_congr
      intro other hother
      exact h other (List.mem_cons_of_mem _ (List.mem_filterMap.mpr ⟨v, hv, hother⟩))
    apply Option.ext
    intro out
    rw [mapM_eq_some_iff, mapM_eq_some_iff, hvecs]

theorem footprint_congr (h : ∀ other ∈ footprint heap addr, heap' other = heap other) :
    footprint heap' addr = footprint heap addr := by
  rw [footprint, infoAt_congr h, footprint]

theorem map_read_blocks {vecs : List Iovec} {blocks : List Nat} {cells : List (Block UInt8)}
    (haddr : vecs.map Iovec.addr = blocks.map some)
    (hlen : cells.map List.length = vecs.map Iovec.iovLen)
    (hheap : ∀ block ∈ blocks.zip cells, heap block.1 = some (.block block.2)) :
    vecs.map (Iovec.read heap) = cells.map fun cells => some ⟨cells⟩ := by
  induction vecs generalizing blocks cells with
  | nil =>
    rw [List.map_nil, List.map_eq_nil_iff] at hlen
    simp [hlen]
  | cons v vecs ih =>
    cases blocks with
    | nil => simp at haddr
    | cons block blocks =>
      cases cells with
      | nil => simp at hlen
      | cons cell cells =>
        simp only [List.map_cons, List.cons.injEq] at haddr hlen
        rw [List.map_cons, List.map_cons, ih haddr.2 hlen.2
          fun other hother => hheap other (List.mem_cons_of_mem _ hother)]
        congr 1
        have hbase : v.iovBase = .block block := by
          have hfirst := haddr.1
          unfold Iovec.addr at hfirst
          split at hfirst
          · rename_i own hown
            rw [hown, Option.some.inj hfirst]
          · cases hfirst
        have hcell := hheap (block, cell) List.mem_cons_self
        dsimp only at hcell
        simp [Iovec.read, hbase, Pointer.cells, hcell, hlen.1]

end Reading

theorem Shows.emit {p : State} {s : Ring.State} (hs : Shows p s) (effects : List Effect) :
    Shows { p with toQueues := p.emit effects } (s.emit effects) :=
  { hs with log := congrArg (· ++ effects) hs.log }

theorem Shows.with_heap {p : State} {s : Ring.State} (hs : Shows p s)
    {heap : Nat → Option Object}
    (hread : ∀ addr ∈ pending p, readAt heap addr = readAt p.heap addr) :
    Shows { p with heap := heap } s := by
  refine { hs with sq := ?_, inflight := ?_, cq := ?_ }
  · rw [← hs.sq]
    exact List.map_congr_left fun addr haddr => hread addr (by simp [pending, haddr])
  · rw [← hs.inflight]
    exact List.map_congr_left fun addr haddr => hread addr (by simp [pending, haddr])
  · rw [← hs.cq]
    apply List.map_congr_left
    intro cqe hcqe
    rw [hread cqe.userData (List.mem_append_right _ (List.mem_map_of_mem hcqe))]

theorem Owned.emit {p : State} {lost : List Nat} (ho : Owned p lost) (effects : List Effect) :
    Owned { p with toQueues := p.emit effects } lost :=
  ⟨ho.holds, ho.laid⟩

section Owners

variable {p q : State} {s : Ring.State} {addr : Nat} {rest lost : List Nat}

theorem Owned.split (ho : Owned p lost) (hperm : (pending p).Perm (addr :: rest)) :
    Holds p.heap (footprint p.heap addr ++ (rest.flatMap (footprint p.heap) ++ lost)) := by
  apply ho.holds.perm
  rw [← List.append_assoc, ← List.flatMap_cons]
  exact (hperm.flatMap_right _).append_right lost

theorem Owned.apart (ho : Owned p lost) (hperm : (pending p).Perm (addr :: rest)) {other : Nat}
    (hother : other ∈ rest) : ∀ b ∈ footprint p.heap other, b ∉ footprint p.heap addr := by
  intro b hb hmine
  have hdisjoint := (List.nodup_append'.mp (ho.split hperm).distinct).2.2
  exact hdisjoint hmine
    (List.mem_append_left _ (List.mem_flatMap.mpr ⟨other, hother, hb⟩))

theorem Owned.of_same {lost' : List Nat} (ho : Owned p lost)
    (hmem : ∀ a ∈ pending q, a ∈ pending p)
    (hheld : Holds q.heap ((pending q).flatMap (footprint p.heap) ++ lost'))
    (hinfo : ∀ a ∈ pending q, infoAt q.heap a = infoAt p.heap a) : Owned q lost' := by
  have hprint : ∀ a ∈ pending q, footprint q.heap a = footprint p.heap a := by
    intro a ha
    rw [footprint, hinfo a ha, footprint]
  refine ⟨?_, fun a ha fi hfi => ?_⟩
  · rw [List.flatMap_congr hprint]
    exact hheld
  · rw [hinfo a ha] at hfi
    exact ho.laid a (hmem a ha) fi hfi

end Owners

section Pop

variable {p : State} {s : Ring.State} {addr : Nat} {back lost : List Nat} {fi : FileInfo}

def closed (p : State) (fd : Nat) (file : File) (effect : Effect) : State :=
  { p with toQueues := p.finished fd file effect }

theorem finish_agrees (hs : Shows p s) (fd : Nat) (call : CbInfo → Option Effect) :
    Agrees (fun q t => ∃ file effect, q = closed p fd file effect ∧
      t = s.finished fd file effect) (p.lift (Ring.finish fd call)) (Ring.finish fd call s) := by
  unfold State.lift Ring.finish
  rw [hs.cbMap]
  dsimp only
  generalize (s.cbMap fd).getD ⟨none, none, none⟩ = info
  cases hclose : info.close with
  | none => exact .error _
  | some file =>
    cases hcall : call info with
    | none => exact .error _
    | some effect => exact .ok ⟨file, effect, rfl, rfl⟩

theorem readCallback_agrees {vecs : List Iovec} {iovecs : List Blocks.Iovec} (hs : Shows p s)
    (hread : vecs.map (Iovec.read p.heap) = iovecs.map some) (length fd : Nat) :
    Agrees (fun q t => ∃ file effect, q = closed p fd file effect ∧
      t = s.finished fd file effect)
      (readCallback vecs length fd p) (Ring.readCallback iovecs length fd s) := by
  unfold readCallback
  rw [mapM_eq_some_iff.mpr hread]
  change Agrees _ (p.lift (Ring.readCallback iovecs length fd)) _
  unfold Ring.readCallback
  cases gather iovecs length with
  | none => exact .error _
  | some buf => exact finish_agrees hs fd _

theorem retire_agrees {cqe : Ring.Cqe} (hs : Shows p s) (hfi : infoAt p.heap addr = some fi)
    (hread : readAt p.heap addr = some cqe.data) (hlaid : Laid fi)
    (hheld : Holds p.heap (fi.blocks ++ back)) :
    Agrees (fun q t => ∃ file effect, Holds q.heap back ∧
        (∀ a ∉ fi.blocks, q.heap a = p.heap a) ∧
        q = { closed p fi.fileFd file effect with heap := q.heap } ∧
        t = s.finished fi.fileFd file effect)
      (retire fi cqe.res p) (Ring.callBack cqe s) := by
  rcases readAt_eq_some.mp hread with ⟨own, hown, hvecs, hop, hsz, hfd, -⟩
  rw [hfi] at hown
  cases hown
  unfold retire Ring.callBack
  dsimp only
  rw [hop, hsz, hfd]
  unfold Laid at hlaid
  cases hcode : fi.opcode with
  | readv =>
    rw [hcode] at hlaid
    dsimp only at hlaid ⊢
    have hvectors : fi.vectors (popBlocks fi.fileSz) = some fi.iovecs := by
      rw [FileInfo.vectors, if_pos (Nat.le_of_eq hlaid.2.symm), ← hlaid.2, List.take_length]
    rw [hvectors]
    apply (readCallback_agrees hs hvecs (popBlocks fi.fileSz) fi.fileFd).andThen
    rintro q t ⟨file, effect, rfl, rfl⟩
    rcases hheld.freeAll with ⟨heap, hfree, hback, hsame⟩
    rw [mapM_eq_some_iff.mpr hlaid.1]
    refine ⟨{ closed p fi.fileFd file effect with heap := heap }, ?_, file, effect, hback, hsame,
      rfl, rfl⟩
    change orWild (freeAll p.heap fi.blocks) >>= _ = _
    rw [hfree]
    rfl
  | writev =>
    rw [hcode] at hlaid
    dsimp only at hlaid ⊢
    rw [hlaid] at hheld ⊢
    unfold Ring.writeCallback
    apply (finish_agrees hs fi.fileFd _).mono
    rintro q t ⟨file, effect, rfl, rfl⟩
    exact ⟨file, effect, hheld, fun _ _ => rfl, rfl, rfl⟩

theorem Shows.closed (hs : Shows p s) (fd : Nat) (file : File) (effect : Effect) :
    Shows (closed p fd file effect) (s.finished fd file effect) := by
  refine { hs with cbMap := ?_, openFds := ?_, log := ?_ }
  · exact congrArg (Function.update · fd none) hs.cbMap
  · exact congrArg (List.erase · file.fd) hs.openFds
  · exact congrArg (· ++ _) hs.log

def seen (p : State) : State := { p with toQueues := ioUringCqeSeen p.toQueues }

theorem Shows.seen (hs : Shows p s) : Shows (seen p) (ioUringCqeSeen s) := by
  refine { hs with cq := ?_, cqHead := ?_ }
  · have htail := congrArg List.tail hs.cq
    rw [← List.map_tail, ← List.map_tail] at htail
    exact htail
  · exact congrArg (· + 1) hs.cqHead

theorem pending_seen {cqe : Cqe} {rest : List Cqe} (hcq : p.cq = cqe :: rest) :
    (pending p).Perm (cqe.userData :: pending (seen p)) := by
  rw [pending, pending, Custody.seen, ioUringCqeSeen, hcq, List.map_cons]
  exact List.perm_middle

theorem popped_shows {cqe : Cqe} {rest : List Cqe} {heap : Nat → Option Object}
    (hs : Shows p s) (ho : Owned p lost) (hcq : p.cq = cqe :: rest)
    (hfi : infoAt p.heap cqe.userData = some fi) (file : File) (effect : Effect)
    (hheld : Holds heap (cqe.userData ::
      ((pending (seen p)).flatMap (footprint p.heap) ++ lost)))
    (hsame : ∀ a ∉ fi.blocks, heap a = p.heap a) :
    ∃ after, free heap cqe.userData = some after ∧
      Shows { seen (closed p fi.fileFd file effect) with heap := after }
        (ioUringCqeSeen (s.finished fi.fileFd file effect)) ∧
      Owned { seen (closed p fi.fileFd file effect) with heap := after } lost := by
  rcases hheld.free with ⟨hfree, hrest⟩
  have hagree : ∀ a ∈ pending (seen p), ∀ b ∈ footprint p.heap a,
      Function.update heap cqe.userData none b = p.heap b := by
    intro a ha b hb
    have hnot := ho.apart (pending_seen hcq) ha b hb
    rw [footprint, hfi, List.mem_cons, not_or] at hnot
    rw [Function.update_of_ne hnot.1, hsame b hnot.2]
  refine ⟨_, hfree, ?_, ?_⟩
  · exact (hs.closed fi.fileFd file effect).seen.with_heap
      fun a ha => readAt_congr (hagree a ha)
  · refine ho.of_same (fun a ha => (pending_seen hcq).mem_iff.mpr ?_) hrest
      fun a ha => infoAt_congr (hagree a ha)
    exact List.mem_cons_of_mem _ ha

theorem popRequest_agrees (hs : Shows p s) (ho : Owned p lost) :
    Agrees (fun q t => q.1 = t.1 ∧ Shows q.2 t.2 ∧ Owned q.2 lost)
      (popRequest p) (Ring.popRequest s) := by
  unfold popRequest Ring.popRequest
  have hcqs := hs.cq
  cases hcq : p.cq with
  | nil =>
    rw [hcq, List.map_nil, eq_comm, List.map_eq_nil_iff] at hcqs
    rw [hcqs]
    exact .ok ⟨rfl, hs.emit _, ho.emit _⟩
  | cons cqe rest =>
    cases hring : s.cq with
    | nil => simp [hcq, hring] at hcqs
    | cons head tail =>
      rw [hcq, hring] at hcqs
      simp only [List.map_cons, List.cons.injEq, Prod.mk.injEq] at hcqs
      rcases hcqs with ⟨⟨hres, hread⟩, htail⟩
      have hs' : Shows { p with examined := p.examined ++ [cqe] }
          { s with examined := s.examined ++ [head] } := { hs with }
      have ho' : Owned { p with examined := p.examined ++ [cqe] } lost := ⟨ho.holds, ho.laid⟩
      dsimp only
      rw [hres, ← hcq, ← hring]
      split
      · rename_i hneg
        exact .ok ⟨rfl, hs'.emit _, ho'.emit _⟩
      · rename_i hneg
        rcases readAt_eq_some.mp hread with ⟨fi, hfi, -⟩
        have hlaid := ho.laid cqe.userData
          ((pending_seen hcq).mem_iff.mpr List.mem_cons_self) fi hfi
        have hheld := ho.split (pending_seen hcq)
        rw [footprint, hfi] at hheld
        have hagree := retire_agrees hs' hfi hread hlaid (hheld.perm List.perm_middle.symm)
        rw [hfi]
        change Agrees _ (retire fi head.res _ >>= _) _
        generalize retire fi head.res _ = x at hagree ⊢
        generalize Ring.callBack head _ = y at hagree ⊢
        cases hagree with
        | error fault => exact .error fault
        | ok hrel =>
          rcases hrel with ⟨file, effect, hback, hsame, hq, ht⟩
          rcases popped_shows hs' ho' hcq hfi file effect hback hsame with
            ⟨after, hfree, hshows, howned⟩
          rw [hq, ht]
          change Agrees _ (orWild (free _ cqe.userData) >>= _) _
          rw [hfree]
          exact .ok ⟨rfl, hshows, howned⟩

theorem owner_eq (hs : Shows p s) : rig.owner p = Loop.rig.owner s := by
  have hhead := congrArg List.head? hs.cq
  rw [List.head?_map, List.head?_map] at hhead
  simp only [rig, Loop.rig]
  cases hcq : p.cq.head? with
  | none =>
    rw [hcq, Option.map_none, eq_comm, Option.map_eq_none_iff] at hhead
    rw [hhead]
    rfl
  | some cqe =>
    rw [hcq, Option.map_some, eq_comm, Option.map_eq_some_iff] at hhead
    rcases hhead with ⟨head, hring, hboth⟩
    rcases readAt_eq_some.mp (Prod.ext_iff.mp hboth).2.symm with ⟨fi, hfi, -, -, -, -, howner⟩
    rw [hring, Option.bind_some, hfi, Option.map_some, Option.map_some, howner]

end Pop

section Push

variable {p : State} {s : Ring.State} {lost : List Nat} {objects : List (Nat × Object)}
  {grant : Grant} {r : Request} {addr fileSz : Nat}

def leftBy (grant : Grant) (r : Request) : List Nat :=
  if grant.blocks.length < blocksOf r then grant.addrs else []

theorem Owned.place_apart (ho : Owned p lost)
    (hfresh : ∀ addr ∈ objects.map Prod.fst, p.heap addr = none) :
    ∀ a ∈ pending p, ∀ b ∈ footprint p.heap a, place p.heap objects b = p.heap b := by
  intro a ha b hb
  apply place_of_not_mem
  intro hmem
  have hused := (ho.holds.used b).mpr
    (List.mem_append_left _ (List.mem_flatMap.mpr ⟨a, ha, hb⟩))
  rw [hfresh b hmem] at hused
  exact absurd hused (by simp)

theorem Owned.left (ho : Owned p lost) (hdistinct : (objects.map Prod.fst).Nodup)
    (hfresh : ∀ addr ∈ objects.map Prod.fst, p.heap addr = none) :
    Owned { p with heap := place p.heap objects } (lost ++ objects.map Prod.fst) := by
  have hsame := ho.place_apart hfresh
  refine ho.of_same (fun a ha => ha) ?_ fun a ha => infoAt_congr (hsame a ha)
  have hheld := ho.holds.place_new hdistinct hfresh
  apply hheld.perm
  change List.Perm _ ((pending p).flatMap _ ++ (lost ++ objects.map Prod.fst))
  rw [← List.append_assoc ((pending p).flatMap _)]
  exact List.perm_append_comm

theorem Owned.pushed {fi : FileInfo} (ho : Owned p lost)
    (hdistinct : (((addr, Object.info fi) :: objects).map Prod.fst).Nodup)
    (hfresh : ∀ a ∈ ((addr, Object.info fi) :: objects).map Prod.fst, p.heap a = none)
    (hlaid : Laid fi) (hblocks : fi.blocks = objects.map Prod.fst) :
    Owned { p with heap := place p.heap ((addr, .info fi) :: objects), sq := p.sq ++ [addr] }
      lost := by
  have hsame := ho.place_apart hfresh
  have hinfo : infoAt (place p.heap ((addr, .info fi) :: objects)) addr = some fi :=
    infoAt_eq_some.mpr (place_of_mem hdistinct List.mem_cons_self)
  have hperm : (p.sq ++ [addr] ++ p.inflight ++ p.cq.map Cqe.userData).Perm
      (addr :: pending p) := by
    simp only [pending, List.append_assoc, List.singleton_append]
    exact List.perm_middle
  have hheld := ho.holds.place_new hdistinct hfresh
  refine ⟨hheld.perm ?_, fun a ha own hown => ?_⟩
  · refine List.Perm.trans ?_ ((hperm.symm.flatMap_right _).append_right lost)
    rw [List.flatMap_cons, footprint, hinfo,
      List.flatMap_congr fun a ha => footprint_congr (hsame a ha), List.append_assoc]
    exact List.Perm.of_eq (by simp [hblocks])
  · rcases List.mem_cons.mp (hperm.mem_iff.mp ha) with rfl | hold
    · rw [hinfo, Option.mem_def, Option.some.injEq] at hown
      rw [← hown]
      exact hlaid
    · rw [infoAt_congr (hsame a hold)] at hown
      exact ho.laid a hold own hown

theorem map_fst_objects (h : grant.blocks.length ≤ (pushLayout fileSz).totalBlocks) :
    (grant.objects fileSz).map Prod.fst = grant.blocks := by
  have hlen : grant.blocks.length ≤ (blockLens fileSz).length := by simpa [blockLens] using h
  rw [Grant.objects, List.map_map]
  exact List.map_fst_zip hlen

theorem map_addr_iovecs (h : grant.blocks.length ≤ (pushLayout fileSz).totalBlocks) :
    (grant.iovecs fileSz).map Iovec.addr = grant.blocks.map some := by
  have hlen : grant.blocks.length ≤ (blockLens fileSz).length := by simpa [blockLens] using h
  rw [Grant.iovecs, List.map_map, ← List.map_fst_zip hlen, List.map_map, List.map_fst_zip hlen]
  rfl

theorem prepare_agrees {fi : FileInfo} {seen : Ring.FileInfo} (hs : Shows p s) (ho : Owned p lost)
    (hdistinct : (((addr, Object.info fi) :: objects).map Prod.fst).Nodup)
    (hfresh : ∀ a ∈ ((addr, Object.info fi) :: objects).map Prod.fst, p.heap a = none)
    (hlaid : Laid fi) (hblocks : fi.blocks = objects.map Prod.fst)
    (hread : readAt (place p.heap ((addr, .info fi) :: objects)) addr = some seen) :
    Agrees (fun q t => q.1 = t.1 ∧ Shows q.2 t.2 ∧ Owned q.2 lost)
      ((State.lift { p with heap := place p.heap ((addr, .info fi) :: objects) }
        (Ring.prepare addr)).map fun s => ((0 : Int), s))
      ((Ring.prepare seen s).map fun ring => (0, ring)) := by
  have hlen : p.sq.length = s.sq.length := by simpa using congrArg List.length hs.sq
  unfold State.lift Ring.prepare
  dsimp only
  rw [hlen]
  split
  · have hkept := hs.with_heap fun a ha => readAt_congr (ho.place_apart hfresh a ha)
    refine .ok ⟨rfl, { hkept with sq := ?_ }, ho.pushed hdistinct hfresh hlaid hblocks⟩
    have hsq : p.sq.map (readAt (place p.heap ((addr, .info fi) :: objects))) = s.sq.map some :=
      hkept.sq
    rw [List.map_append, List.map_append, hsq, List.map_singleton, List.map_singleton, hread]
  · exact .error _

theorem allocFails_iff (n : Nat) (r : Request) :
    Loop.AllocFails (fun k => decide (k < n)) r ↔ n < blocksOf r := by
  unfold Loop.AllocFails blocksOf
  cases r.code with
  | opCodeWrite => simp
  | opCodeRead =>
    simp only [true_and, populate]
    constructor
    · intro hnone
      by_contra hle
      have hsome : (List.range (pushLayout r.size).totalBlocks).mapM (fun i =>
          if decide (i < n) = true then some (Blocks.Iovec.mk
            (blank UInt8 ((pushLayout r.size).currentBlockSize i))) else none) =
          some (blankIovecs r.size) := by
        rw [mapM_eq_some_iff, blankIovecs, Blocks.blockLens, List.map_map, List.map_map]
        apply List.map_congr_left
        intro i hi
        have hlt : i < n := by
          have := List.mem_range.mp hi
          omega
        simp [hlt]
      rw [hsome] at hnone
      cases hnone
    · intro hlt
      by_contra hsome
      rcases Option.ne_none_iff_exists'.mp hsome with ⟨out, hout⟩
      rw [mapM_eq_some_iff] at hout
      have hplace := congrArg (fun l => l[n]?) hout
      simp only [List.getElem?_map, List.getElem?_range hlt, Option.map_some] at hplace
      cases hn : out[n]? with
      | none => simp [hn] at hplace
      | some iovec => simp [hn] at hplace

theorem read_granted {fd owner : Nat} {heap : Nat → Option Object} {fi : FileInfo}
    (hfi : fi = ⟨.readv, fileSz, fd, grant.iovecs fileSz, owner⟩)
    (hall : grant.blocks.length = (pushLayout fileSz).totalBlocks)
    (hdistinct : (((addr, Object.info fi) :: grant.objects fileSz).map Prod.fst).Nodup) :
    fi.blocks = grant.blocks ∧ Laid fi ∧
      readAt (place heap ((addr, .info fi) :: grant.objects fileSz)) addr =
        some ⟨.readv, fileSz, fd, blankIovecs fileSz, owner⟩ := by
  have haddrs : fi.iovecs.map Iovec.addr = grant.blocks.map some := by
    rw [hfi]
    exact map_addr_iovecs (Nat.le_of_eq hall)
  have hblocks : fi.blocks = grant.blocks := by
    have hmap := congrArg (List.filterMap id) haddrs
    rw [List.filterMap_map, List.filterMap_map] at hmap
    simpa [FileInfo.blocks] using hmap
  have hlen : fi.iovecs.length = popBlocks fileSz := by
    have := congrArg List.length haddrs
    rw [List.length_map, List.length_map, hall, ← popBlocks_eq] at this
    exact this
  refine ⟨hblocks, ?_, readAt_eq_some.mpr ⟨fi, ?_, ?_, ?_⟩⟩
  · rw [Laid, hfi] at *
    exact ⟨by rw [hblocks]; exact haddrs, hlen⟩
  · exact infoAt_eq_some.mpr (place_of_mem hdistinct List.mem_cons_self)
  · have hsizes : (blockLens fileSz).length = grant.blocks.length := by
      rw [hall, blockLens, List.length_map, List.length_range]
    have hlens : ((blockLens fileSz).map (blank UInt8)).map List.length =
        fi.iovecs.map Iovec.iovLen := by
      rw [hfi, Grant.iovecs, List.map_map, List.map_map]
      simp [Function.comp_def, blank, List.map_snd_zip (Nat.le_of_eq hsizes)]
    rw [map_read_blocks haddrs hlens, blankIovecs, List.map_map, List.map_map]
    · rfl
    · intro block hblock
      rw [List.zip_map_right] at hblock
      rcases List.mem_map.mp hblock with ⟨own, hown, rfl⟩
      exact place_of_mem hdistinct (List.mem_cons_of_mem _ (List.mem_map.mpr ⟨own, hown, rfl⟩))
  · rw [hfi]
    exact ⟨rfl, rfl, rfl, rfl⟩

theorem push_agrees (hs : Shows p s) (ho : Owned p lost) (hgrant : grant.Fresh p.heap r)
    (hinfo : grant.info = some addr) :
    Agrees (fun q t => q.1 = t.1 ∧ Shows q.2 t.2 ∧ Owned q.2 (lost ++ leftBy grant r))
      (push grant r p) (Loop.push (fun k => decide (k < grant.blocks.length)) r s) := by
  have haddrs : grant.addrs = addr :: grant.blocks := by rw [Grant.addrs, hinfo]; rfl
  have hdistinct := hgrant.distinct
  have hfresh := hgrant.unused
  have hasked := hgrant.asked
  rw [haddrs] at hdistinct hfresh
  unfold push
  unfold blocksOf at hasked
  cases hcode : r.code with
  | opCodeRead =>
    rw [hcode] at hasked
    dsimp only at hasked ⊢
    have hfst := map_fst_objects hasked
    have hmap : ∀ object, ((addr, object) :: grant.objects r.size).map Prod.fst =
        addr :: grant.blocks := by
      intro object
      rw [List.map_cons, hfst]
    unfold pushReadRequest
    rw [hinfo]
    dsimp only
    by_cases hfails : grant.blocks.length < (pushLayout r.size).totalBlocks
    · have hleft : grant.blocks.length < blocksOf r := by rw [blocksOf, hcode]; exact hfails
      rw [if_pos hfails, leftBy, if_pos hleft, haddrs]
      rw [Loop.push_of_fails ((allocFails_iff _ r).mpr hleft)]
      rw [← hmap .raw] at hdistinct hfresh ⊢
      refine .ok ⟨rfl, ?_, ho.left hdistinct hfresh⟩
      exact hs.with_heap fun a ha => readAt_congr (ho.place_apart hfresh a ha)
    · have hleft : ¬ grant.blocks.length < blocksOf r := by rw [blocksOf, hcode]; exact hfails
      rw [if_neg hfails, leftBy, if_neg hleft, List.append_nil]
      rw [Loop.push_eq s (mt (allocFails_iff _ r).mp hleft), Request.info, hcode]
      dsimp only
      rw [← hmap (.info ⟨.readv, r.size, r.fd, grant.iovecs r.size, r.id⟩)] at hdistinct hfresh
      have hall : grant.blocks.length = (pushLayout r.size).totalBlocks := by omega
      rcases read_granted rfl hall hdistinct with ⟨hblocks, hlaid, hread⟩
      exact prepare_agrees hs ho hdistinct hfresh hlaid (hblocks.trans hfst.symm) hread
  | opCodeWrite =>
    rw [hcode] at hasked
    dsimp only at hasked ⊢
    have hleft : ¬ grant.blocks.length < blocksOf r := by
      rw [blocksOf, hcode]
      exact Nat.not_lt_zero _
    rw [leftBy, if_neg hleft, List.append_nil, Loop.push_eq s (mt (allocFails_iff _ r).mp hleft),
      Request.info, hcode, pushWriteRequest, hinfo]
    dsimp only
    rw [List.eq_nil_of_length_eq_zero (Nat.le_zero.mp hasked)] at hdistinct hfresh
    refine prepare_agrees hs ho hdistinct hfresh rfl rfl (readAt_eq_some.mpr ⟨_,
      infoAt_eq_some.mpr (Function.update_self ..), ?_, rfl, rfl, rfl, rfl⟩)
    simp [Iovec.read, Pointer.cells]

end Push

section Kernel

variable {p : State} {s : Ring.State} {lost : List Nat} {addr i : Nat} {fi : FileInfo}
  {seen : Ring.FileInfo} {res : Int} {data : List UInt8}

theorem taken_shows (hs : Shows p s) (count : Nat) :
    Shows { p with toQueues := p.taken count } (s.taken count) := by
  refine { hs with sq := ?_, inflight := ?_ }
  · simp only [Ring.Queues.taken, List.map_drop, hs.sq]
  · simp only [Ring.Queues.taken, List.map_append, List.map_take, hs.inflight, hs.sq]

theorem taken_owned (ho : Owned p lost) (count : Nat) :
    Owned { p with toQueues := p.taken count } lost := by
  have hperm : (pending { p with toQueues := p.taken count }).Perm (pending p) := by
    simp only [pending, Ring.Queues.taken]
    apply List.Perm.append_right
    rw [← List.append_assoc]
    refine List.perm_append_comm.trans ?_
    rw [← List.append_assoc, List.take_append_drop]
  exact ho.of_same (fun a ha => hperm.mem_iff.mp ha)
    (ho.holds.perm ((hperm.symm.flatMap_right _).append_right lost)) fun _ _ => rfl

theorem lens_of_read {heap : Nat → Option Object} {vecs : List Iovec}
    {iovecs : List Blocks.Iovec} (h : vecs.map (Iovec.read heap) = iovecs.map some) :
    iovecs.map Blocks.Iovec.iovLen = vecs.map Iovec.iovLen := by
  have hlen : ∀ (v : Iovec) (iovec : Blocks.Iovec), v.read heap = some iovec →
      iovec.iovLen = v.iovLen := by
    intro v iovec hread
    unfold Iovec.read at hread
    split at hread
    · split at hread
      · rename_i hcells
        cases hread
        exact hcells
      · cases hread
    · cases hread
  induction vecs generalizing iovecs with
  | nil =>
    cases iovecs with
    | nil => rfl
    | cons iovec iovecs => simp at h
  | cons v vecs ih =>
    cases iovecs with
    | nil => simp at h
    | cons iovec iovecs =>
      rw [List.map_cons, List.map_cons, List.cons.injEq] at h
      rw [List.map_cons, List.map_cons, ih h.2, hlen v iovec h.1]

theorem transfer_reads (res : Int) (data : List UInt8) (hfi : infoAt p.heap addr = some fi)
    (hread : readAt p.heap addr = some seen) (hlaid : Laid fi)
    (hdistinct : (addr :: fi.blocks).Nodup) :
    (∀ b ∉ fi.blocks, transfer fi seen.iovecs data p.heap b = p.heap b) ∧
      readAt (transfer fi seen.iovecs data p.heap) addr =
        some (Ring.completion seen res data).data := by
  rcases readAt_eq_some.mp hread with ⟨own, hown, hvecs, hop, hsz, hfd, howner⟩
  rw [hfi] at hown
  cases hown
  unfold transfer Ring.completion
  rw [hop]
  cases hcode : fi.opcode with
  | writev => exact ⟨fun _ _ => rfl, hread⟩
  | readv =>
    dsimp only
    rw [Laid, hcode] at hlaid
    dsimp only at hlaid
    have hcells : (readv seen.iovecs data).map Blocks.Iovec.iovBase =
        fill (seen.iovecs.map Blocks.Iovec.iovBase) data := Blocks.map_iovBase_readv ..
    have hlens : ((readv seen.iovecs data).map Blocks.Iovec.iovBase).map List.length =
        fi.iovecs.map Iovec.iovLen := by
      rw [hcells, fill_map_length, List.map_map, ← lens_of_read hvecs]
      rfl
    have hcount : fi.blocks.length = (readv seen.iovecs data).length := by
      have hleft := congrArg List.length hlaid.1
      have hright := congrArg List.length hlens
      simp only [List.length_map] at hleft hright
      omega
    have hfst : (fi.blocks.zip ((readv seen.iovecs data).map fun v =>
        Object.block v.iovBase)).map Prod.fst = fi.blocks :=
      List.map_fst_zip (Nat.le_of_eq (by rw [List.length_map, hcount]))
    have hother : ∀ b ∉ fi.blocks, place p.heap (fi.blocks.zip ((readv seen.iovecs data).map
        fun v => Object.block v.iovBase)) b = p.heap b := by
      intro b hb
      rw [← hfst] at hb
      exact place_of_not_mem hb
    refine ⟨hother, readAt_eq_some.mpr ⟨fi, ?_, ?_, hcode.symm, hsz, hfd, howner⟩⟩
    · rw [infoAt_of_eq (hother addr (List.nodup_cons.mp hdistinct).1), hfi]
    · rw [map_read_blocks hlaid.1 hlens, List.map_map]
      · rfl
      · intro block hblock
        rw [List.zip_map_right] at hblock
        rcases List.mem_map.mp hblock with ⟨own, hown, rfl⟩
        apply place_of_mem
        · rw [hfst]
          exact (List.nodup_cons.mp hdistinct).2
        · rw [List.zip_map_right]
          exact List.mem_map.mpr ⟨own, hown, rfl⟩

theorem transfer_holds {heap : Nat → Option Object} {addrs : List Nat} (h : Holds heap addrs)
    (hblocks : ∀ b ∈ fi.blocks, b ∈ addrs) (iovecs : List Blocks.Iovec) :
    Holds (transfer fi iovecs data heap) addrs := by
  unfold transfer
  cases fi.opcode with
  | writev => exact h
  | readv =>
    apply h.place_old
    intro b hb
    rcases List.mem_map.mp hb with ⟨block, hblock, rfl⟩
    exact hblocks _ (List.of_mem_zip hblock).1

theorem pending_posted (hi : p.inflight[i]? = some addr) :
    (pending p).Perm (addr :: pending { p with inflight := p.inflight.eraseIdx i }) := by
  have hperm := ((perm_eraseIdx hi).append_left p.sq).append_right (p.cq.map Cqe.userData)
  refine hperm.trans ?_
  simp only [pending, List.append_assoc, List.cons_append]
  exact List.perm_middle

theorem posted_shows (res : Int) (data : List UInt8) (hs : Shows p s) (ho : Owned p lost)
    (hi : p.inflight[i]? = some addr) (hfi : infoAt p.heap addr = some fi)
    (hread : readAt p.heap addr = some seen) :
    Shows (posted p i addr res (transfer fi seen.iovecs data p.heap))
        (Loop.posted s i seen res data) ∧
      Owned (posted p i addr res (transfer fi seen.iovecs data p.heap)) lost := by
  have hperm := pending_posted hi
  have hmem : addr ∈ pending p := hperm.mem_iff.mpr List.mem_cons_self
  have hprint : footprint p.heap addr = addr :: fi.blocks := by rw [footprint, hfi]; rfl
  have hheld := ho.split hperm
  rw [hprint] at hheld
  have hdistinct := (List.nodup_append'.mp hheld.distinct).1
  rcases transfer_reads res data hfi hread (ho.laid addr hmem fi hfi) hdistinct with
    ⟨hsame, hnew⟩
  have hagree : ∀ a ∈ pending { p with inflight := p.inflight.eraseIdx i },
      ∀ b ∈ footprint p.heap a, transfer fi seen.iovecs data p.heap b = p.heap b := by
    intro a ha b hb
    have hnot := ho.apart hperm ha b hb
    rw [hprint, List.mem_cons, not_or] at hnot
    exact hsame b hnot.2
  constructor
  · have hrest : Shows { p with inflight := p.inflight.eraseIdx i }
        { s with inflight := s.inflight.eraseIdx i } := by
      refine { hs with inflight := ?_ }
      rw [← List.eraseIdx_map, hs.inflight, List.eraseIdx_map]
    have hkept := hrest.with_heap fun a ha => readAt_congr (hagree a ha)
    refine { hkept with cq := ?_ }
    simp only [posted, Loop.posted, List.map_append, List.map_singleton, hnew]
    have hres : (Ring.completion seen res data).res = res := by
      unfold Ring.completion
      cases seen.opcode <;> rfl
    rw [hkept.cq, hres]
  · have hafter : (pending (posted p i addr res (transfer fi seen.iovecs data p.heap))).Perm
        (pending p) := by
      refine List.Perm.trans ?_ hperm.symm
      simp only [pending, posted, List.map_append, List.map_singleton, ← List.append_assoc]
      exact List.perm_append_singleton addr _
    refine ho.of_same (fun a ha => hafter.mem_iff.mp ha) ?_ fun a ha => ?_
    · apply (transfer_holds ho.holds ?_ seen.iovecs).perm
      · exact (hafter.symm.flatMap_right _).append_right lost
      · intro b hb
        apply List.mem_append_left
        refine List.mem_flatMap.mpr ⟨addr, hmem, ?_⟩
        rw [hprint]
        exact List.mem_cons_of_mem addr hb
    · rcases List.mem_cons.mp (hperm.mem_iff.mp (hafter.mem_iff.mp ha)) with rfl | hother
      · exact infoAt_of_eq (hsame a (List.nodup_cons.mp hdistinct).1)
      · exact infoAt_congr (hagree a hother)

end Kernel

end IoWrapper.FileRing.Custody
