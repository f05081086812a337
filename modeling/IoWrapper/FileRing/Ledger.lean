import IoWrapper.Core.Pool
import IoWrapper.FileRing.Loop

/-! The ledger of requests. In every run, whatever fails in it, each request
that the loop has taken is in one of three places: pending in the ring with its
entry in the map, left behind by a failed push with its entry in the map, or
done, with its file closed once and its own callback called once. -/
namespace IoWrapper.FileRing.Ledger
open Core.Machine Core.Pool Blocks FileRing.Ring Pop Loop

def isClose (id : Nat) : Effect → Bool
  | .closeFile own => own == id
  | _ => false

def isReadCb (id : Nat) : Effect → Bool
  | .readCb own _ => own == id
  | _ => false

def isWriteCb (id : Nat) : Effect → Bool
  | .writeCb own _ => own == id
  | _ => false

/-- How often the file of a request was closed, its read callback called and
its write callback called. -/
def tally (log : List Effect) (id : Nat) : Nat × Nat × Nat :=
  (log.countP (isClose id), log.countP (isReadCb id), log.countP (isWriteCb id))

def Untouched (log : List Effect) (id : Nat) : Prop := tally log id = (0, 0, 0)

/-- The file is closed and the request's own callback has been called, both
exactly once, and the other kind of callback never. -/
def Done (log : List Effect) (r : Request) : Prop :=
  tally log r.id = match r.code with
    | .opCodeRead => (1, 1, 0)
    | .opCodeWrite => (1, 0, 1)

/-- A request without the contents of its blocks, which the kernel changes. -/
def frame (fi : FileInfo) : FileInfo := { fi with iovecs := [] }

def Shaped (fi : FileInfo) : Prop :=
  fi.opcode = .readv → fi.iovecs.map Iovec.iovLen = blockLens fi.fileSz

def isPlain : Effect → Bool
  | .stderr _ => true
  | .err text _ _ => text != pushErrorText .opCodeRead && text != pushErrorText .opCodeWrite
  | _ => false

structure Balanced (s : Sys) (live failed : List Request) : Prop where
  pend : ((pendingInfos s.ring).map frame).Perm (live.map fun r => frame r.info)
  shaped : ∀ fi ∈ pendingInfos s.ring, Shaped fi
  entry : ∀ r ∈ live ++ failed, s.ring.cbMap r.fd = some r.cbInfo
  keys : ∀ fd, s.ring.cbMap fd ≠ none → ∃ r ∈ live ++ failed, r.fd = fd
  fds : s.ring.openFds.Perm ((s.waiting ++ (live ++ failed)).map Request.fd)
  distinct : s.ring.openFds.Nodup
  ids : ((s.waiting ++ s.received).map Request.id).Nodup
  numbered : ∀ r ∈ s.waiting ++ s.received, r.id < s.calls
  taken : ∀ r ∈ live ++ failed, r ∈ s.received
  settled : ∀ r ∈ s.received, r ∈ live ++ failed ∨ Done s.ring.log r
  untouched : ∀ r ∈ live ++ failed, Untouched s.ring.log r.id
  unknown : ∀ id, id ∉ s.received.map Request.id → Untouched s.ring.log id
  rejected : ∀ code errno id, .err (pushErrorText code) errno (some id) ∈ s.ring.log →
    ∃ r ∈ failed, r.id = id

theorem tally_append (log more : List Effect) (id : Nat) :
    tally (log ++ more) id =
      ((tally log id).1 + (tally more id).1, (tally log id).2.1 + (tally more id).2.1,
        (tally log id).2.2 + (tally more id).2.2) := by
  simp [tally]

theorem tally_append_of_untouched {log more : List Effect} {id : Nat}
    (h : Untouched more id) : tally (log ++ more) id = tally log id := by
  rw [tally_append, show tally more id = (0, 0, 0) from h]
  rfl

theorem untouched_of_plain {more : List Effect} (h : ∀ effect ∈ more, isPlain effect)
    (id : Nat) : Untouched more id := by
  have hzero : ∀ p : Effect → Bool, (∀ effect, isPlain effect → p effect = false) →
      more.countP p = 0 := by
    intro p hp
    rw [List.countP_eq_zero]
    intro effect heffect
    rw [hp effect (h effect heffect)]
    exact Bool.false_ne_true
  unfold Untouched tally
  rw [hzero (isClose id), hzero (isReadCb id), hzero (isWriteCb id)]
  all_goals
    intro effect hplain
    cases effect <;> first | rfl | cases hplain

theorem not_isPlain_pushError (code : OpCode) (errno : Int) (about : Option Nat) :
    isPlain (.err (pushErrorText code) errno about) = false := by
  cases code <;> simp [isPlain]

theorem frame_completion (fi : FileInfo) (res : Int) (data : List UInt8) :
    frame (completion fi res data).data = frame fi := by
  unfold completion
  split <;> rfl

theorem shaped_completion {fi : FileInfo} (res : Int) (data : List UInt8) (h : Shaped fi) :
    Shaped (completion fi res data).data := by
  unfold completion
  split
  · intro hop
    exact (map_iovLen_filled fi.iovecs data).trans (h hop)
  · exact h

theorem shaped_info (r : Request) : Shaped r.info := by
  unfold Request.info
  cases r.code with
  | opCodeRead =>
    intro _
    exact map_iovLen_blankIovecs r.size
  | opCodeWrite =>
    intro hop
    cases hop

structure Quiet (s t : Sys) : Prop where
  waiting : t.waiting = s.waiting
  received : t.received = s.received
  calls : t.calls = s.calls
  cbMap : t.ring.cbMap = s.ring.cbMap
  openFds : t.ring.openFds = s.ring.openFds
  pend : ((pendingInfos t.ring).map frame).Perm ((pendingInfos s.ring).map frame)
  shaped : (∀ fi ∈ pendingInfos s.ring, Shaped fi) → ∀ fi ∈ pendingInfos t.ring, Shaped fi
  log : ∃ more, t.ring.log = s.ring.log ++ more ∧ ∀ effect ∈ more, isPlain effect

theorem Quiet.tally {s t : Sys} (h : Quiet s t) (id : Nat) :
    tally t.ring.log id = tally s.ring.log id := by
  rcases h.log with ⟨more, hmore, hplain⟩
  rw [hmore, tally_append_of_untouched (untouched_of_plain hplain id)]

theorem Balanced.of_quiet {s t : Sys} {live failed : List Request} (hs : Balanced s live failed)
    (h : Quiet s t) : Balanced t live failed where
  pend := h.pend.trans hs.pend
  shaped := h.shaped hs.shaped
  entry := by
    rw [h.cbMap]
    exact hs.entry
  keys := by
    rw [h.cbMap]
    exact hs.keys
  fds := by
    rw [h.openFds, h.waiting]
    exact hs.fds
  distinct := by
    rw [h.openFds]
    exact hs.distinct
  ids := by
    rw [h.waiting, h.received]
    exact hs.ids
  numbered := by
    rw [h.waiting, h.received, h.calls]
    exact hs.numbered
  taken := by
    rw [h.received]
    exact hs.taken
  settled := by
    simp only [h.received, Done, h.tally]
    exact hs.settled
  untouched := by
    simp only [Untouched, h.tally]
    exact hs.untouched
  unknown := by
    simp only [h.received, Untouched, h.tally]
    exact hs.unknown
  rejected := by
    intro code errno id herr
    rcases h.log with ⟨more, hmore, hplain⟩
    rw [hmore] at herr
    rcases List.mem_append.mp herr with herr | herr
    · exact hs.rejected code errno id herr
    · have := hplain _ herr
      rw [not_isPlain_pushError] at this
      cases this

theorem quiet_of_log {s t : Sys} {more : List Effect} {examined : List Cqe}
    (hwaiting : t.waiting = s.waiting) (hreceived : t.received = s.received)
    (hcalls : t.calls = s.calls)
    (hring : t.ring = { s.ring with examined := examined, log := s.ring.log ++ more })
    (hplain : ∀ effect ∈ more, isPlain effect) : Quiet s t := by
  have hpend : pendingInfos t.ring = pendingInfos s.ring := by
    rw [hring]
    rfl
  refine ⟨hwaiting, hreceived, hcalls, by rw [hring], by rw [hring], by rw [hpend], ?_,
    more, by rw [hring], hplain⟩
  rw [hpend]
  exact id

theorem quiet_of_ring {s t : Sys} (hwaiting : t.waiting = s.waiting)
    (hreceived : t.received = s.received) (hcalls : t.calls = s.calls)
    (hring : t.ring = s.ring) : Quiet s t :=
  @quiet_of_log s t [] s.ring.examined hwaiting hreceived hcalls (by simp [hring])
    (by simp)

theorem quiet_taken (s : Sys) (count n : Nat) :
    Quiet s { s with ring := s.ring.taken count, pc := .popping n } := by
  have hperm : (pendingInfos (s.ring.taken count)).Perm (pendingInfos s.ring) := by
    refine List.Perm.append_right _ ?_
    have hsplit : (s.ring.sq.drop count ++ (s.ring.inflight ++ s.ring.sq.take count)).Perm
        (s.ring.inflight ++ (s.ring.sq.take count ++ s.ring.sq.drop count)) := by
      rw [← List.append_assoc s.ring.inflight]
      exact List.perm_append_comm
    rw [List.take_append_drop] at hsplit
    exact hsplit.trans List.perm_append_comm
  exact ⟨rfl, rfl, rfl, rfl, rfl, hperm.map frame,
    fun h fi hfi => h fi (hperm.mem_iff.mp hfi), [], (List.append_nil _).symm, by simp⟩

theorem quiet_posted {s : Sys} {i : Nat} {fi : FileInfo} (res : Int) (data : List UInt8)
    (hfi : s.ring.inflight[i]? = some fi) :
    Quiet s { s with ring := posted s.ring i fi res data } := by
  have hbefore : (pendingInfos s.ring).Perm
      (fi :: (s.ring.sq ++ s.ring.inflight.eraseIdx i ++ s.ring.cq.map Cqe.data)) := by
    simp only [pendingInfos, List.append_assoc]
    exact (((perm_eraseIdx hfi).append_right _).append_left _).trans List.perm_middle
  have hafter : (pendingInfos (posted s.ring i fi res data)).Perm
      ((completion fi res data).data ::
        (s.ring.sq ++ s.ring.inflight.eraseIdx i ++ s.ring.cq.map Cqe.data)) := by
    simp only [pendingInfos, posted, List.map_append, List.map_cons, List.map_nil]
    rw [← List.append_assoc]
    exact List.perm_append_singleton _ _
  refine ⟨rfl, rfl, rfl, rfl, rfl, ?_, fun h own hown => ?_,
    [], (List.append_nil _).symm, by simp⟩
  · have hframes := hafter.map frame
    rw [List.map_cons, frame_completion, ← List.map_cons] at hframes
    exact hframes.trans (hbefore.map frame).symm
  · cases List.mem_cons.mp (hafter.mem_iff.mp hown) with
    | inl heq =>
      rw [heq]
      exact shaped_completion res data (h fi (hbefore.mem_iff.mpr (List.mem_cons_self ..)))
    | inr hrest => exact h own (hbefore.mem_iff.mpr (List.mem_cons_of_mem _ hrest))

theorem Balanced.nodup_fds {s : Sys} {live failed : List Request}
    (hs : Balanced s live failed) :
    ((s.waiting ++ (live ++ failed)).map Request.fd).Nodup :=
  hs.fds.nodup_iff.mp hs.distinct

theorem Balanced.nodup_owned_fds {s : Sys} {live failed : List Request}
    (hs : Balanced s live failed) : ((live ++ failed).map Request.fd).Nodup := by
  have hall := hs.nodup_fds
  rw [List.map_append] at hall
  exact hall.of_append_right

theorem Balanced.nodup_received {s : Sys} {live failed : List Request}
    (hs : Balanced s live failed) : (s.received.map Request.id).Nodup := by
  have hall := hs.ids
  rw [List.map_append] at hall
  exact hall.of_append_right

theorem Balanced.opened {s : Sys} {live failed : List Request} {r : Request}
    (hs : Balanced s live failed) (hid : r.id = s.calls) (hfd : r.fd ∉ s.ring.openFds) :
    Balanced (s.opened r) live failed where
  pend := hs.pend
  shaped := hs.shaped
  entry := hs.entry
  keys := hs.keys
  fds := by
    have hmiddle : ((s.waiting ++ [r] ++ (live ++ failed)).map Request.fd).Perm
        (r.fd :: (s.waiting ++ (live ++ failed)).map Request.fd) := by
      rw [List.append_assoc, ← List.map_cons]
      exact List.perm_middle.map Request.fd
    exact (hs.fds.cons r.fd).trans hmiddle.symm
  distinct := List.nodup_cons.mpr ⟨hfd, hs.distinct⟩
  ids := by
    have hmiddle : ((s.waiting ++ [r] ++ s.received).map Request.id).Perm
        (r.id :: (s.waiting ++ s.received).map Request.id) := by
      rw [List.append_assoc, ← List.map_cons]
      exact List.perm_middle.map Request.id
    refine hmiddle.nodup_iff.mpr (List.nodup_cons.mpr ⟨fun hmem => ?_, hs.ids⟩)
    rcases List.mem_map.mp hmem with ⟨q, hq, hqid⟩
    have := hs.numbered q hq
    omega
  numbered := by
    intro q hq
    change q.id < s.calls + 1
    simp only [Frame.opened, List.append_assoc, List.mem_append, List.mem_singleton] at hq
    rcases hq with hq | hq | hq
    · exact Nat.lt_succ_of_lt (hs.numbered q (List.mem_append_left _ hq))
    · rw [hq, hid]
      exact Nat.lt_succ_self _
    · exact Nat.lt_succ_of_lt (hs.numbered q (List.mem_append_right _ hq))
  taken := hs.taken
  settled := hs.settled
  untouched := hs.untouched
  unknown := hs.unknown
  rejected := hs.rejected

/-- The loop has taken a request and stored its callbacks: the request is new
among those with an entry, whether or not its push succeeds. -/
structure Joined (s t : Sys) (i : Nat) (r : Request) (owned owned' : List Request) : Prop where
  waits : s.waiting[i]? = some r
  waiting : t.waiting = s.waiting.eraseIdx i
  received : t.received = s.received ++ [r]
  calls : t.calls = s.calls
  cbMap : t.ring.cbMap = Function.update s.ring.cbMap r.fd (some r.cbInfo)
  openFds : t.ring.openFds = s.ring.openFds
  tally : ∀ id, tally t.ring.log id = Ledger.tally s.ring.log id
  perm : owned'.Perm (r :: owned)

section Joining

variable {s t : Sys} {live failed owned' : List Request} {i : Nat} {r : Request}

theorem Joined.mem_iff (h : Joined s t i r (live ++ failed) owned') (q : Request) :
    q ∈ owned' ↔ q = r ∨ q ∈ live ++ failed := by
  rw [h.perm.mem_iff, List.mem_cons]

theorem Joined.fd_ne (h : Joined s t i r (live ++ failed) owned') (hs : Balanced s live failed) :
    ∀ q ∈ live ++ failed, q.fd ≠ r.fd := fun q hq =>
  ne_of_perm_cons hs.nodup_fds ((perm_eraseIdx h.waits).append_right _) q
    (List.mem_append_right _ hq)

theorem Joined.new (h : Joined s t i r (live ++ failed) owned') (hs : Balanced s live failed) :
    r.id ∉ s.received.map Request.id := by
  intro hin
  rcases List.mem_map.mp hin with ⟨q, hq, heq⟩
  exact ne_of_perm_cons hs.ids ((perm_eraseIdx h.waits).append_right _) q
    (List.mem_append_right _ hq) heq

theorem Joined.entry (h : Joined s t i r (live ++ failed) owned') (hs : Balanced s live failed) :
    ∀ q ∈ owned', t.ring.cbMap q.fd = some q.cbInfo := by
  intro q hq
  rw [h.cbMap]
  rcases (h.mem_iff q).mp hq with heq | hold
  · rw [heq, Function.update_self]
  · rw [Function.update_of_ne (h.fd_ne hs q hold)]
    exact hs.entry q hold

theorem Joined.keys (h : Joined s t i r (live ++ failed) owned') (hs : Balanced s live failed) :
    ∀ fd, t.ring.cbMap fd ≠ none → ∃ q ∈ owned', q.fd = fd := by
  intro fd hfd
  rw [h.cbMap] at hfd
  by_cases heq : fd = r.fd
  · exact ⟨r, (h.mem_iff r).mpr (Or.inl rfl), heq.symm⟩
  · rw [Function.update_of_ne heq] at hfd
    rcases hs.keys fd hfd with ⟨q, hq, hqfd⟩
    exact ⟨q, (h.mem_iff q).mpr (Or.inr hq), hqfd⟩

theorem Joined.fds (h : Joined s t i r (live ++ failed) owned') (hs : Balanced s live failed) :
    t.ring.openFds.Perm ((t.waiting ++ owned').map Request.fd) := by
  rw [h.openFds, h.waiting]
  refine hs.fds.trans (List.Perm.map Request.fd ?_)
  refine ((perm_eraseIdx h.waits).append_right _).trans
    (List.Perm.trans ?_ (h.perm.symm.append_left _))
  exact List.perm_middle.symm

theorem Joined.ids (h : Joined s t i r (live ++ failed) owned') (hs : Balanced s live failed) :
    ((t.waiting ++ t.received).map Request.id).Nodup := by
  have hmoved : (s.waiting.eraseIdx i ++ (s.received ++ [r])).Perm (s.waiting ++ s.received) := by
    rw [← List.append_assoc]
    exact (List.perm_append_singleton r _).trans
      ((perm_eraseIdx h.waits).append_right s.received).symm
  rw [h.waiting, h.received]
  exact (hmoved.map Request.id).nodup_iff.mpr hs.ids

theorem Joined.numbered (h : Joined s t i r (live ++ failed) owned')
    (hs : Balanced s live failed) : ∀ q ∈ t.waiting ++ t.received, q.id < t.calls := by
  intro q hq
  rw [h.waiting, h.received] at hq
  rw [h.calls]
  apply hs.numbered q
  rcases List.mem_append.mp hq with hq | hq
  · exact List.mem_append_left _ (List.mem_of_mem_eraseIdx hq)
  · rcases List.mem_append.mp hq with hq | hq
    · exact List.mem_append_right _ hq
    · rw [List.mem_singleton.mp hq]
      exact List.mem_append_left _ (List.mem_of_getElem? h.waits)

theorem Joined.taken (h : Joined s t i r (live ++ failed) owned') (hs : Balanced s live failed) :
    ∀ q ∈ owned', q ∈ t.received := by
  intro q hq
  rw [h.received]
  rcases (h.mem_iff q).mp hq with heq | hold
  · rw [heq]
    exact List.mem_append_right _ (List.mem_singleton_self r)
  · exact List.mem_append_left _ (hs.taken q hold)

theorem Joined.settled (h : Joined s t i r (live ++ failed) owned') (hs : Balanced s live failed) :
    ∀ q ∈ t.received, q ∈ owned' ∨ Done t.ring.log q := by
  intro q hq
  rw [h.received] at hq
  simp only [Done, h.tally]
  rcases List.mem_append.mp hq with hq | hq
  · exact (hs.settled q hq).imp_left fun hold => (h.mem_iff q).mpr (Or.inr hold)
  · exact Or.inl ((h.mem_iff q).mpr (Or.inl (List.mem_singleton.mp hq)))

theorem Joined.untouched (h : Joined s t i r (live ++ failed) owned')
    (hs : Balanced s live failed) : ∀ q ∈ owned', Untouched t.ring.log q.id := by
  intro q hq
  simp only [Untouched, h.tally]
  rcases (h.mem_iff q).mp hq with heq | hold
  · rw [heq]
    exact hs.unknown r.id (h.new hs)
  · exact hs.untouched q hold

theorem Joined.unknown (h : Joined s t i r (live ++ failed) owned') (hs : Balanced s live failed) :
    ∀ id, id ∉ t.received.map Request.id → Untouched t.ring.log id := by
  intro id hid
  simp only [Untouched, h.tally]
  apply hs.unknown id
  intro hin
  apply hid
  rw [h.received, List.map_append]
  exact List.mem_append_left _ hin

end Joining

theorem Balanced.registered {s t : Sys} {live failed live' failed' : List Request} {i : Nat}
    {r : Request} (hs : Balanced s live failed)
    (h : Joined s t i r (live ++ failed) (live' ++ failed'))
    (hpend : ((pendingInfos t.ring).map frame).Perm (live'.map fun r => frame r.info))
    (hshaped : ∀ fi ∈ pendingInfos t.ring, Shaped fi)
    (hrejected : ∀ code errno id, .err (pushErrorText code) errno (some id) ∈ t.ring.log →
      ∃ q ∈ failed', q.id = id) : Balanced t live' failed' where
  pend := hpend
  shaped := hshaped
  entry := h.entry hs
  keys := h.keys hs
  fds := h.fds hs
  distinct := h.openFds ▸ hs.distinct
  ids := h.ids hs
  numbered := h.numbered hs
  taken := h.taken hs
  settled := h.settled hs
  untouched := h.untouched hs
  unknown := h.unknown hs
  rejected := hrejected

theorem callOf_cbInfo {r : Request} {cqe : Cqe} {effect : Effect}
    (hop : cqe.data.opcode = r.code.opcode) (hcall : callOf cqe r.cbInfo = some effect) :
    (r.code = .opCodeRead ∧ ∃ buf, effect = .readCb r.id buf) ∨
      (r.code = .opCodeWrite ∧ ∃ written, effect = .writeCb r.id written) := by
  unfold callOf at hcall
  rw [hop] at hcall
  cases hcode : r.code with
  | opCodeRead =>
    simp only [hcode, OpCode.opcode, Request.cbInfo, cbInfoOf, Option.map_some,
      Option.bind_eq_some_iff, Option.some.injEq] at hcall
    rcases hcall with ⟨buf, -, heq⟩
    exact Or.inl ⟨rfl, buf, heq.symm⟩
  | opCodeWrite =>
    simp only [hcode, OpCode.opcode, Request.cbInfo, cbInfoOf, Option.map_some,
      Option.some.injEq] at hcall
    exact Or.inr ⟨rfl, cqe.res, hcall.symm⟩

theorem tally_callOf {r : Request} {cqe : Cqe} {effect : Effect}
    (hop : cqe.data.opcode = r.code.opcode) (hcall : callOf cqe r.cbInfo = some effect) :
    Done [.closeFile r.id, effect] r ∧
      ∀ id, id ≠ r.id → Untouched [.closeFile r.id, effect] id := by
  rcases callOf_cbInfo hop hcall with ⟨hcode, buf, heq⟩ | ⟨hcode, written, heq⟩
  · rw [heq]
    refine ⟨by simp [Done, hcode, tally, isClose, isReadCb, isWriteCb], fun id hid => ?_⟩
    simp [Untouched, tally, isClose, isReadCb, isWriteCb, hid.symm]
  · rw [heq]
    refine ⟨by simp [Done, hcode, tally, isClose, isReadCb, isWriteCb], fun id hid => ?_⟩
    simp [Untouched, tally, isClose, isReadCb, isWriteCb, hid.symm]

theorem Balanced.owner {s : Sys} {live failed : List Request} {fi : FileInfo}
    (hs : Balanced s live failed) (hfi : fi ∈ pendingInfos s.ring) :
    ∃ r ∈ live, frame fi = frame r.info := by
  have hmem : frame fi ∈ live.map fun r => frame r.info :=
    hs.pend.mem_iff.mp (List.mem_map_of_mem hfi)
  rcases List.mem_map.mp hmem with ⟨r, hr, heq⟩
  exact ⟨r, hr, heq.symm⟩

theorem fileFd_of_frame {fi : FileInfo} {r : Request} (h : frame fi = frame r.info) :
    fi.fileFd = r.fd :=
  (congrArg FileInfo.fileFd h).trans (info_fileFd r)

theorem opcode_of_frame {fi : FileInfo} {r : Request} (h : frame fi = frame r.info) :
    fi.opcode = r.code.opcode :=
  (congrArg FileInfo.opcode h).trans (info_opcode r)

theorem owner_of_frame {fi : FileInfo} {r : Request} (h : frame fi = frame r.info) :
    fi.owner = r.id :=
  (congrArg FileInfo.owner h).trans (info_owner r)

/-- A request has been called back, and has no entry any more. -/
structure Retired (s t : Sys) (cqe : Cqe) (r : Request) (effect : Effect)
    (live others : List Request) : Prop where
  head : ∃ rest, s.ring.cq = cqe :: rest
  own : frame cqe.data = frame r.info
  call : callOf cqe r.cbInfo = some effect
  waiting : t.waiting = s.waiting
  received : t.received = s.received
  calls : t.calls = s.calls
  ring : t.ring = s.ring.popped cqe r.file effect
  perm : live.Perm (r :: others)

section Retiring

variable {s t : Sys} {live failed others : List Request} {r : Request} {cqe : Cqe}
  {effect : Effect}

theorem Retired.mem_iff (h : Retired s t cqe r effect live others) (q : Request) :
    q ∈ live ++ failed ↔ q = r ∨ q ∈ others ++ failed := by
  have howned : (live ++ failed).Perm (r :: (others ++ failed)) := h.perm.append_right failed
  rw [howned.mem_iff, List.mem_cons]

theorem Retired.all (h : Retired s t cqe r effect live others) :
    (s.waiting ++ (live ++ failed)).Perm (r :: (s.waiting ++ (others ++ failed))) :=
  ((h.perm.append_right failed).append_left s.waiting).trans List.perm_middle

theorem Retired.fd_ne (h : Retired s t cqe r effect live others) (hs : Balanced s live failed) :
    ∀ q ∈ others ++ failed, q.fd ≠ r.fd :=
  fun q hq => ne_of_perm_cons hs.nodup_fds h.all q (List.mem_append_right _ hq)

theorem Retired.mem_received (h : Retired s t cqe r effect live others)
    (hs : Balanced s live failed) : r ∈ s.received :=
  hs.taken r (h.mem_iff r |>.mpr (Or.inl rfl))

theorem Retired.tally_eq (h : Retired s t cqe r effect live others) (id : Nat) :
    tally t.ring.log id = tally (s.ring.log ++ [.closeFile r.id, effect]) id := by
  rw [h.ring]
  rfl

theorem Retired.cbMap (h : Retired s t cqe r effect live others) :
    t.ring.cbMap = Function.update s.ring.cbMap r.fd none := by
  rw [h.ring, ← fileFd_of_frame h.own]
  rfl

theorem Retired.tally_of_ne (h : Retired s t cqe r effect live others) {id : Nat}
    (hne : id ≠ r.id) : tally t.ring.log id = tally s.ring.log id := by
  rw [h.tally_eq, tally_append_of_untouched
    ((tally_callOf (opcode_of_frame h.own) h.call).2 id hne)]

theorem Retired.id_ne (h : Retired s t cqe r effect live others) (hs : Balanced s live failed)
    {q : Request} (hq : q ∈ s.received) (hne : q ≠ r) : q.id ≠ r.id :=
  fun heq => hne (eq_of_nodup_map hs.nodup_received hq (h.mem_received hs) heq)

theorem Retired.done (h : Retired s t cqe r effect live others) (hs : Balanced s live failed) :
    Done t.ring.log r := by
  have hbefore : tally s.ring.log r.id = (0, 0, 0) :=
    hs.untouched r ((h.mem_iff r).mpr (Or.inl rfl))
  rw [Done, h.tally_eq, tally_append, hbefore]
  simp only [Nat.zero_add]
  exact (tally_callOf (opcode_of_frame h.own) h.call).1

theorem Retired.pend (h : Retired s t cqe r effect live others) (hs : Balanced s live failed) :
    ((pendingInfos t.ring).map frame).Perm (others.map fun r => frame r.info) := by
  rcases h.head with ⟨rest, hcq⟩
  have hframes := ((pendingInfos_popped r.file effect hcq).map frame).symm.trans
    (hs.pend.trans (h.perm.map _))
  rw [List.map_cons, List.map_cons, h.own] at hframes
  rw [h.ring]
  exact hframes.cons_inv

theorem Retired.shaped (h : Retired s t cqe r effect live others) (hs : Balanced s live failed) :
    ∀ fi ∈ pendingInfos t.ring, Shaped fi := by
  rcases h.head with ⟨rest, hcq⟩
  intro fi hfi
  rw [h.ring] at hfi
  exact hs.shaped fi
    ((pendingInfos_popped r.file effect hcq).mem_iff.mpr (List.mem_cons_of_mem _ hfi))

theorem Retired.entry (h : Retired s t cqe r effect live others) (hs : Balanced s live failed) :
    ∀ q ∈ others ++ failed, t.ring.cbMap q.fd = some q.cbInfo := by
  intro q hq
  rw [h.cbMap, Function.update_of_ne (h.fd_ne hs q hq)]
  exact hs.entry q ((h.mem_iff q).mpr (Or.inr hq))

theorem Retired.keys (h : Retired s t cqe r effect live others) (hs : Balanced s live failed) :
    ∀ fd, t.ring.cbMap fd ≠ none → ∃ q ∈ others ++ failed, q.fd = fd := by
  intro fd hsome
  rw [h.cbMap] at hsome
  by_cases heq : fd = r.fd
  · rw [heq, Function.update_self] at hsome
    exact absurd rfl hsome
  · rw [Function.update_of_ne heq] at hsome
    rcases hs.keys fd hsome with ⟨q, hq, rfl⟩
    refine ⟨q, ((h.mem_iff q).mp hq).resolve_left ?_, rfl⟩
    exact fun hqr => heq (congrArg Request.fd hqr)

theorem Retired.fds (h : Retired s t cqe r effect live others) (hs : Balanced s live failed) :
    t.ring.openFds.Perm ((t.waiting ++ (others ++ failed)).map Request.fd) := by
  have herase := (hs.fds.trans (h.all.map Request.fd)).erase r.fd
  rw [List.map_cons, List.erase_cons_head] at herase
  rw [h.ring, h.waiting]
  exact herase

theorem Retired.settled (h : Retired s t cqe r effect live others) (hs : Balanced s live failed) :
    ∀ q ∈ t.received, q ∈ others ++ failed ∨ Done t.ring.log q := by
  intro q hq
  rw [h.received] at hq
  by_cases heq : q = r
  · rw [heq]
    exact Or.inr (h.done hs)
  · rcases hs.settled q hq with hold | hdone
    · exact Or.inl (((h.mem_iff q).mp hold).resolve_left heq)
    · refine Or.inr ?_
      rw [Done, h.tally_of_ne (h.id_ne hs hq heq)]
      exact hdone

theorem Retired.untouched (h : Retired s t cqe r effect live others)
    (hs : Balanced s live failed) : ∀ q ∈ others ++ failed, Untouched t.ring.log q.id := by
  intro q hq
  have hold := (h.mem_iff q).mpr (Or.inr hq)
  have hne : q ≠ r := fun heq => h.fd_ne hs q hq (congrArg Request.fd heq)
  rw [Untouched, h.tally_of_ne (h.id_ne hs (hs.taken q hold) hne)]
  exact hs.untouched q hold

theorem Retired.unknown (h : Retired s t cqe r effect live others) (hs : Balanced s live failed) :
    ∀ id, id ∉ t.received.map Request.id → Untouched t.ring.log id := by
  intro id hid
  rw [h.received] at hid
  have hne : id ≠ r.id := by
    intro heq
    apply hid
    rw [heq]
    exact List.mem_map_of_mem (h.mem_received hs)
  rw [Untouched, h.tally_of_ne hne]
  exact hs.unknown id hid

theorem Retired.rejected (h : Retired s t cqe r effect live others)
    (hs : Balanced s live failed) :
    ∀ code errno id, .err (pushErrorText code) errno (some id) ∈ t.ring.log →
      ∃ q ∈ failed, q.id = id := by
  intro code errno id herr
  rw [h.ring] at herr
  apply hs.rejected code errno id
  rcases callOf_cbInfo (opcode_of_frame h.own) h.call with ⟨-, buf, heq⟩ | ⟨-, written, heq⟩
  · simpa [State.popped, heq] using herr
  · simpa [State.popped, heq] using herr

theorem Balanced.popped (hs : Balanced s live failed)
    (h : Retired s t cqe r effect live others) : Balanced t others failed where
  pend := h.pend hs
  shaped := h.shaped hs
  entry := h.entry hs
  keys := h.keys hs
  fds := h.fds hs
  distinct := by
    rw [h.ring]
    exact hs.distinct.erase r.fd
  ids := by
    rw [h.waiting, h.received]
    exact hs.ids
  numbered := by
    rw [h.waiting, h.received, h.calls]
    exact hs.numbered
  taken := by
    intro q hq
    rw [h.received]
    exact hs.taken q ((h.mem_iff q).mpr (Or.inr hq))
  settled := h.settled hs
  untouched := h.untouched hs
  unknown := h.unknown hs
  rejected := h.rejected hs

end Retiring

/-- A request cannot be pushed: an allocation failed, or there is no free entry. -/
def Unpushed (s : Sys) (event : Event) : Prop :=
  ∃ i memalign r, event = .receive i memalign ∧ s.pc = .select ∧ s.waiting[i]? = some r ∧
    (AllocFails memalign r ∨ queueDepth ≤ s.ring.sq.length)

theorem Balanced.step {s t : Sys} {event : Event} {live failed : List Request}
    (hs : Balanced s live failed) (h : Step s event t) :
    ∃ live' failed', Balanced t live' failed' ∧ (failed' = failed ∨ Unpushed s event) := by
  have hquiet : Quiet s t → ∃ live' failed', Balanced t live' failed' ∧
      (failed' = failed ∨ Unpushed s event) :=
    fun hquiet => ⟨live, failed, hs.of_quiet hquiet, Or.inl rfl⟩
  have hkept : ∀ code errno id, .err (pushErrorText code) errno (some id) ∈ s.ring.log →
      ∀ r, ∃ q ∈ r :: failed, q.id = id := by
    intro code errno id herr r
    rcases hs.rejected code errno id herr with ⟨q, hq, hqid⟩
    exact ⟨q, List.mem_cons_of_mem _ hq, hqid⟩
  cases h with
  | @opened event r hcall hfd =>
    have hid : r.id = s.calls := by
      cases event with
      | readFile fd size => cases hcall; rfl
      | writeFile fd data => cases hcall; rfl
      | _ => cases hcall
    exact ⟨live, failed, hs.opened hid hfd, Or.inl rfl⟩
  -- The callbacks are stored before the push, so that a request which is not pushed has an entry
  -- all the same.
  | @pushFaulted i memalign r hpc hr halloc hfull =>
    refine ⟨live, r :: failed, ?_, Or.inr ⟨i, memalign, r, rfl, hpc, hr, Or.inr hfull⟩⟩
    exact hs.registered ⟨hr, rfl, rfl, rfl, rfl, rfl, fun _ => rfl, List.perm_middle⟩ hs.pend
      hs.shaped fun code errno id herr => hkept code errno id herr r
  | @pushFailed i memalign r hpc hr halloc =>
    refine ⟨live, r :: failed, ?_, Or.inr ⟨i, memalign, r, rfl, hpc, hr, Or.inl halloc⟩⟩
    refine hs.registered ⟨hr, rfl, rfl, rfl, rfl, rfl, fun id => ?_, List.perm_middle⟩ hs.pend
      hs.shaped fun code errno id herr => ?_
    · exact tally_append_of_untouched rfl
    · rcases List.mem_append.mp herr with herr | herr
      · exact hkept code errno id herr r
      · simp only [List.mem_singleton, Effect.err.injEq, Option.some.injEq] at herr
        exact ⟨r, List.mem_cons_self .., herr.2.2.symm⟩
  | @pushed i memalign r hpc hr halloc hroom =>
    have hpend : (pendingInfos (s.pushed i r).ring).Perm (r.info :: pendingInfos s.ring) := by
      simp only [pendingInfos, Sys.pushed, Frame.registered, rig, Queues.register,
        List.append_assoc]
      exact List.perm_middle
    refine ⟨r :: live, failed, ?_, Or.inl rfl⟩
    refine hs.registered ⟨hr, rfl, rfl, rfl, rfl, rfl, fun _ => rfl, List.Perm.refl _⟩ ?_
      (fun fi hfi => ?_) hs.rejected
    · exact (hpend.map frame).trans (hs.pend.cons _)
    · rcases List.mem_cons.mp (hpend.mem_iff.mp hfi) with heq | hold
      · rw [heq]
        exact shaped_info r
      · exact hs.shaped fi hold
  | callReturn | poll | pollReturn | quit | popFaulted =>
    exact hquiet (quiet_of_ring rfl rfl rfl rfl)
  | @receivePoll i p hpc hp hwaits =>
    refine hquiet ?_
    unfold Frame.receivePoll
    dsimp only
    split
    · exact quiet_of_ring rfl rfl rfl rfl
    · exact quiet_of_ring rfl rfl rfl rfl
  | submitFailed hpc hret =>
    exact hquiet (quiet_of_log rfl rfl rfl rfl (by simp [isPlain, pushErrorText]))
  | @submitted n ret hpc hret => exact hquiet (quiet_taken s ret.toNat n)
  | completed hfi hreports => exact hquiet (quiet_posted _ _ hfi)
  | spun hpc hcq =>
    exact hquiet (quiet_of_log (by simp) (by simp) (by simp) (resumed_ring ..)
      (by simp [isPlain, pushErrorText]))
  | refused hpc hcq hneg =>
    exact hquiet (quiet_of_log (by simp) (by simp) (by simp) (resumed_ring ..)
      (by simp [isPlain, pushErrorText]))
  | @popped n cqe rest info file effect hpc hcq hres hentry hclose hcall =>
    -- The entry is looked up by the descriptor in the record, which only its own request has.
    rcases hs.owner (mem_pendingInfos_head hcq) with ⟨r, hr, hown⟩
    have hfd := fileFd_of_frame hown
    have hinfo : info = r.cbInfo := by
      rw [hfd, hs.entry r (List.mem_append_left _ hr)] at hentry
      exact (Option.some.inj hentry).symm
    rw [hinfo] at hclose hcall
    have hfile : file = r.file := Option.some.inj (hclose.symm.trans (close_cbInfoOf _ _))
    rw [hfile]
    refine ⟨live.erase r, failed, ?_, Or.inl rfl⟩
    exact hs.popped ⟨⟨rest, hcq⟩, hown, hcall, by simp, by simp, by simp, resumed_ring ..,
      List.perm_cons_erase hr⟩

theorem balanced_init : Balanced Sys.init [] [] := by
  constructor <;> simp [Sys.init, Queues.init, pendingInfos, Untouched, tally]

theorem balanced_of_reachable {s : Sys} (h : Reachable step Sys.init s) :
    ∃ live failed, Balanced s live failed := by
  refine h.invariant (fun s => ∃ live failed, Balanced s live failed) ⟨[], [], balanced_init⟩
    fun s event t _ hs hstep => ?_
  rcases hs with ⟨live, failed, hs⟩
  rcases hs.step (step_sound hstep) with ⟨live', failed', ht, -⟩
  exact ⟨live', failed', ht⟩

theorem backed_of_reachable {s : Sys} (h : Reachable step Sys.init s) : Backed s.ring := by
  rcases balanced_of_reachable h with ⟨live, failed, hs⟩
  refine ⟨fun fi hfi => ?_, ?_, hs.shaped⟩
  · rcases hs.owner hfi with ⟨r, hr, hown⟩
    refine ⟨r.file, ?_⟩
    rw [fileFd_of_frame hown, opcode_of_frame hown]
    exact hs.entry r (List.mem_append_left _ hr)
  · have hfds := hs.pend.map FileInfo.fileFd
    rw [List.map_map, List.map_map] at hfds
    have hlive : live.map (FileInfo.fileFd ∘ fun r => frame r.info) = live.map Request.fd :=
      List.map_congr_left fun r _ => info_fileFd r
    rw [hlive] at hfds
    have howned := hs.nodup_owned_fds
    rw [List.map_append] at howned
    exact hfds.nodup_iff.mpr howned.of_append_left

theorem Balanced.done_of_grows {s t : Sys} {live failed : List Request} {r : Request}
    (ht : Balanced t live failed) (hgrows : ∃ more, t.ring.log = s.ring.log ++ more)
    (hr : r ∈ t.received) (hdone : Done s.ring.log r) : Done t.ring.log r := by
  rcases ht.settled r hr with howned | hdone'
  · rcases hgrows with ⟨more, hmore⟩
    have hnone := ht.untouched r howned
    rw [Untouched, hmore, tally_append, hdone] at hnone
    cases hcode : r.code with
    | opCodeRead => simp [hcode] at hnone
    | opCodeWrite => simp [hcode] at hnone
  · exact hdone'

end IoWrapper.FileRing.Ledger
