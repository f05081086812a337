import IoWrapper.FileRing.Ring
import Mathlib.Data.List.Nodup

/-! Popping a batch. The loop of `submitAndPop` counts on each iteration to
take one completion off the queue; `pop_request` does so only for completions
with a result that is not an error and whose blocks it can copy. -/
namespace IoWrapper.FileRing.Pop
open Blocks FileRing.Ring

def pendingInfos (s : State) : List FileInfo :=
  s.sq ++ s.inflight ++ s.cq.map Cqe.data

/-- The `cbInfo` that `startLoop` stores for a request. -/
def cbInfoOf (opcode : Opcode) (file : File) : CbInfo :=
  match opcode with
  | .readv => ⟨some file.id, none, some file⟩
  | .writev => ⟨none, some file.id, some file⟩

/-- What `startLoop` sets up before it pushes a request and what no later step
of it undoes: each pushed request has its own entry in the map, under its own
descriptor, and the blocks of its size. -/
structure Backed (s : State) : Prop where
  entry : ∀ fi ∈ pendingInfos s, ∃ file, s.cbMap fi.fileFd = some (cbInfoOf fi.opcode file)
  distinct : ((pendingInfos s).map FileInfo.fileFd).Nodup
  shaped : ∀ fi ∈ pendingInfos s, fi.opcode = .readv →
    fi.iovecs.map Iovec.iovLen = blockLens fi.fileSz

/-- The blocks of a read can be copied: their length, narrowed to a C `int`,
is not negative. -/
def Copyable (fi : FileInfo) : Prop :=
  fi.opcode = .readv → fi.fileSz / 7 % 2 ^ 32 < 2 ^ 31

instance (fi : FileInfo) : Decidable (Copyable fi) :=
  inferInstanceAs (Decidable (_ → _))

theorem callOf_isSome_iff {cqe : Cqe} (file : File)
    (hshape : cqe.data.opcode = .readv →
      cqe.data.iovecs.map Iovec.iovLen = blockLens cqe.data.fileSz) :
    (callOf cqe (cbInfoOf cqe.data.opcode file)).isSome ↔ Copyable cqe.data := by
  unfold callOf Copyable
  cases hop : cqe.data.opcode with
  | readv =>
    rw [← gather_isSome_iff (hshape hop)]
    cases gather cqe.data.iovecs (popBlocks cqe.data.fileSz) with
    | none => simp
    | some buf => simp [cbInfoOf]
  | writev => simp [cbInfoOf]

theorem close_cbInfoOf (opcode : Opcode) (file : File) :
    (cbInfoOf opcode file).close = some file := by
  cases opcode <;> rfl

theorem mem_pendingInfos_head {s : State} {cqe : Cqe} {rest : List Cqe}
    (hcq : s.cq = cqe :: rest) : cqe.data ∈ pendingInfos s := by
  simp [pendingInfos, hcq]

theorem pendingInfos_popped {s : State} {cqe : Cqe} {rest : List Cqe} (file : File)
    (effect : Effect) (hcq : s.cq = cqe :: rest) :
    (pendingInfos s).Perm (cqe.data :: pendingInfos (s.popped cqe file effect)) := by
  simp only [pendingInfos, State.popped, hcq, List.map_cons, List.tail_cons]
  exact List.perm_middle

theorem Backed.popped {s : State} {cqe : Cqe} {rest : List Cqe} (hs : Backed s)
    (hcq : s.cq = cqe :: rest) (file : File) (effect : Effect) :
    Backed (s.popped cqe file effect) := by
  have hperm := pendingInfos_popped file effect hcq
  have hdistinct : (cqe.data.fileFd ::
      (pendingInfos (s.popped cqe file effect)).map FileInfo.fileFd).Nodup := by
    rw [← List.map_cons]
    exact (hperm.map FileInfo.fileFd).nodup_iff.mp hs.distinct
  have hmem : ∀ fi ∈ pendingInfos (s.popped cqe file effect), fi ∈ pendingInfos s :=
    fun fi hfi => hperm.mem_iff.mpr (List.mem_cons_of_mem _ hfi)
  refine ⟨fun fi hfi => ?_, (List.nodup_cons.mp hdistinct).2,
    fun fi hfi => hs.shaped fi (hmem fi hfi)⟩
  have hne : fi.fileFd ≠ cqe.data.fileFd := by
    intro heq
    apply (List.nodup_cons.mp hdistinct).1
    rw [← heq]
    exact List.mem_map_of_mem hfi
  rcases hs.entry fi (hmem fi hfi) with ⟨own, hown⟩
  exact ⟨own, by simpa [State.popped, Function.update_of_ne hne] using hown⟩

theorem popIteration_of_backed {n : Nat} {s : State} {cqe : Cqe} {rest : List Cqe}
    (hs : Backed s) (hcq : s.cq = cqe :: rest) (hres : 0 ≤ cqe.res)
    (hcopy : Copyable cqe.data) :
    ∃ file effect, popIteration n s = .ok (n - 1, s.popped cqe file effect) := by
  have hmem := mem_pendingInfos_head hcq
  rcases hs.entry _ hmem with ⟨file, hentry⟩
  rcases Option.isSome_iff_exists.mp
    ((callOf_isSome_iff file (hs.shaped _ hmem)).mpr hcopy) with ⟨effect, hcall⟩
  exact ⟨file, effect,
    popIteration_of_entry hcq hres hentry (close_cbInfoOf _ _) hcall⟩

theorem popLoop_of_clean {batch rest : List Cqe} {s : State} (hs : Backed s)
    (hcq : s.cq = batch ++ rest) (hclean : ∀ cqe ∈ batch, 0 ≤ cqe.res ∧ Copyable cqe.data) :
    ∃ t, popLoop (batch.length + 1) batch.length s = some (.ok t) ∧
      t.cqHead = s.cqHead + batch.length ∧ t.cq = rest ∧ t.examined = s.examined ++ batch := by
  induction batch generalizing s with
  | nil => exact ⟨s, rfl, rfl, hcq, by simp⟩
  | cons cqe batch ih =>
    have hfirst := hclean cqe (by simp)
    rcases popIteration_of_backed (n := batch.length + 1) hs hcq hfirst.1 hfirst.2 with
      ⟨file, effect, hiter⟩
    rcases ih (hs.popped hcq file effect) (by simp [State.popped, hcq])
      (fun c hc => hclean c (by simp [hc])) with ⟨t, hrun, hhead, hrest, hexamined⟩
    refine ⟨t, ?_, ?_, hrest, ?_⟩
    · simp only [List.length_cons, popLoop, hiter]
      exact hrun
    · rw [hhead]
      simp only [State.popped, List.length_cons]
      omega
    · rw [hexamined]
      simp [State.popped]

/-- An error at the head of the queue is never passed: every iteration looks at
the same completion again. -/
theorem popLoop_stuck {fuel n : Nat} {s t : State} {cqe : Cqe} {rest : List Cqe}
    (hcq : s.cq = cqe :: rest) (hneg : cqe.res < 0)
    (hrun : popLoop fuel n s = some (.ok t)) :
    t.cqHead = s.cqHead ∧ t.cq = s.cq := by
  induction fuel generalizing n s with
  | zero => cases hrun
  | succ fuel ih =>
    cases n with
    | zero =>
      cases hrun
      exact ⟨rfl, rfl⟩
    | succ n =>
      simp only [popLoop] at hrun
      split at hrun
      · cases hrun
      · rename_i m u hiter
        rcases popIteration_cases hiter with ⟨hnil, -, -⟩ | ⟨c, r, hc, -, -, hu⟩ |
          ⟨c, r, info, file, effect, hc, hres, -⟩
        · simp [hnil] at hcq
        · have := ih (s := u) (by simpa [hu, State.refused] using hcq) hrun
          rw [hu] at this
          exact this
        · rw [hcq] at hc
          cases hc
          omega

/-- A completion that reports -EAGAIN is taken for an empty queue, and the
loop does not come to an end. -/
theorem popLoop_eagain {n : Nat} {s : State} {cqe : Cqe} {rest : List Cqe}
    (hcq : s.cq = cqe :: rest) (hres : cqe.res = -eagain) (fuel : Nat) :
    popLoop fuel (n + 1) s = none := by
  have hneg : cqe.res < 0 := by
    rw [hres]
    decide
  induction fuel generalizing s with
  | zero => rfl
  | succ fuel ih =>
    have hiter : popIteration (n + 1) s = .ok (n + 1, (s.rejected cqe).sendErr
        "error while popping" (-cqe.res) (some cqe.data.owner)) := by
      unfold popIteration
      rw [popRequest_of_neg hcq hneg]
      simp [hcq, hres, eagain, afterPop, Except.map]
    simp only [popLoop, hiter]
    exact ih hcq

theorem clean_of_popLoop {batch rest : List Cqe} {fuel : Nat} {s t : State} (hs : Backed s)
    (hcq : s.cq = batch ++ rest) (hrun : popLoop fuel batch.length s = some (.ok t))
    (hhead : t.cqHead = s.cqHead + batch.length) :
    ∀ cqe ∈ batch, 0 ≤ cqe.res ∧ Copyable cqe.data := by
  induction batch generalizing s fuel with
  | nil => simp
  | cons cqe batch ih =>
    by_cases hneg : cqe.res < 0
    · have hstuck := (popLoop_stuck hcq hneg hrun).1
      simp only [List.length_cons] at hhead
      omega
    · cases fuel with
      | zero => cases hrun
      | succ fuel =>
        simp only [List.length_cons, popLoop] at hrun
        split at hrun
        · cases hrun
        · rename_i m u hiter
          rcases popIteration_cases hiter with ⟨hnil, -, -⟩ | ⟨c, r, hc, hc', -, -⟩ |
            ⟨c, r, info, file, effect, hc, hres, hentry, hclose, hcall, hm, hu⟩
          · simp [hnil] at hcq
          · rw [hcq] at hc
            cases hc
            omega
          · rw [hcq] at hc
            cases hc
            have hmem := mem_pendingInfos_head hcq
            rcases hs.entry _ hmem with ⟨own, hown⟩
            have hinfo : info = cbInfoOf cqe.data.opcode own :=
              Option.some.inj (hentry.symm.trans hown)
            have hcopy : Copyable cqe.data := by
              rw [← callOf_isSome_iff own (hs.shaped _ hmem), ← hinfo, hcall]
              rfl
            subst hm hu
            have hrest := ih (hs.popped hcq file effect) (by simp [State.popped, hcq]) hrun (by
              simp only [State.popped, List.length_cons] at hhead ⊢
              omega)
            intro d hd
            rcases List.mem_cons.mp hd with hd | hd
            · subst hd
              exact ⟨hres, hcopy⟩
            · exact hrest d hd

/-- `submitAndPop` does what its caller counts on: it returns, the head of the
completion queue has moved past the whole batch, and each completion of the
batch has been examined once. -/
def PopsBatch (s : State) (batch rest : List Cqe) (ret : Int) : Prop :=
  ∃ fuel t, submitAndPop fuel batch.length ret s = some (.ok t) ∧
    t.cqHead = s.cqHead + batch.length ∧ t.cq = rest ∧ t.examined = s.examined ++ batch

theorem popsBatch_iff {s : State} {batch rest : List Cqe} {ret : Int} (hs : Backed s)
    (hcq : s.cq = batch ++ rest) (hret : 0 ≤ ret) :
    PopsBatch s batch rest ret ↔ ∀ cqe ∈ batch, 0 ≤ cqe.res ∧ Copyable cqe.data := by
  have hsubmit : ∀ fuel, submitAndPop fuel batch.length ret s =
      popLoop fuel batch.length s := fun fuel => if_neg (by omega)
  refine ⟨fun h => ?_, fun h => ?_⟩
  · rcases h with ⟨fuel, t, hrun, hhead, -, -⟩
    rw [hsubmit] at hrun
    exact clean_of_popLoop hs hcq hrun hhead
  · rcases popLoop_of_clean hs hcq h with ⟨t, hrun, hpost⟩
    refine ⟨batch.length + 1, t, ?_, hpost⟩
    rw [hsubmit]
    exact hrun

def readBatch (results : List Int) : List Cqe :=
  results.zipIdx.map fun p =>
    completion ⟨.readv, 3, p.2 + 3, blankIovecs 3, p.2⟩ p.1 (List.replicate p.1.toNat 97)

def readState (results : List Int) : State :=
  { State.init with
    cq := readBatch results
    cbMap := fun fd => if 3 ≤ fd then some (cbInfoOf .readv ⟨fd - 3, fd⟩) else none }

theorem readState_backed (results : List Int) : Backed (readState results) := by
  have hpending : pendingInfos (readState results) = (readBatch results).map Cqe.data := rfl
  have hmem : ∀ fi ∈ pendingInfos (readState results), ∃ p : Int × Nat,
      fi = (completion ⟨.readv, 3, p.2 + 3, blankIovecs 3, p.2⟩ p.1
        (List.replicate p.1.toNat 97)).data := by
    intro fi hfi
    rw [hpending, readBatch, List.map_map] at hfi
    rcases List.mem_map.mp hfi with ⟨p, -, rfl⟩
    exact ⟨p, rfl⟩
  refine ⟨fun fi hfi => ?_, ?_, fun fi hfi _ => ?_⟩
  · rcases hmem fi hfi with ⟨p, rfl⟩
    exact ⟨⟨p.2, p.2 + 3⟩, by simp [readState, completion]⟩
  · have hfds : (pendingInfos (readState results)).map FileInfo.fileFd =
        (results.zipIdx.map Prod.snd).map (· + 3) := by
      rw [hpending, readBatch, List.map_map, List.map_map, List.map_map]
      rfl
    rw [hfds, List.zipIdx_map_snd]
    exact List.Nodup.map (fun i j hij => by simpa using hij) List.nodup_range'
  · rcases hmem fi hfi with ⟨p, rfl⟩
    exact map_iovLen_readv 3 _

theorem popsBatch_two_reads :
    PopsBatch (readState [3, 3]) (readBatch [3, 3]) [] 2 :=
  (popsBatch_iff (readState_backed [3, 3]) (by simp [readState]) (by decide)).mpr (by decide)

/-- A failed read at the head of a batch of two stays there; a completion that
reports -EAGAIN keeps the loop from returning at all. -/
theorem failed_read_not_popped :
    ¬ PopsBatch (readState [-5, 3]) (readBatch [-5, 3]) [] 2 ∧
      ∀ fuel, submitAndPop fuel 1 1 (readState [-11]) = none := by
  refine ⟨fun h => ?_, fun fuel => ?_⟩
  · rcases h with ⟨fuel, t, hrun, hhead, -, -⟩
    rw [show submitAndPop fuel (readBatch [-5, 3]).length 2 (readState [-5, 3]) =
      popLoop fuel 2 (readState [-5, 3]) from rfl] at hrun
    have hstuck := (popLoop_stuck (s := readState [-5, 3]) rfl (by decide) hrun).1
    rw [hstuck] at hhead
    exact absurd hhead (by decide)
  · exact popLoop_eagain (s := readState [-11]) rfl rfl fuel

/-- The request's `readCb` is called with exactly these bytes. -/
def HandsBytes (s : State) (file : File) (data : List UInt8) : Prop :=
  ∃ t, popRequest s = .ok (0, t) ∧
    t.log = s.log ++ [.closeFile file.id, .readCb file.id (data.map some)]

/-- A pushed read that the kernel completes with the bytes `data` hands them on
only if they are the whole file and every block length fits a C `int`. -/
theorem handsBytes_iff {memalign : Nat → Bool} {owner fd fileSz : Nat} {before after s : State}
    {fi : FileInfo} {data : List UInt8} {rest : List Cqe} {file : File}
    (hpush : pushReadRequest memalign owner fd fileSz before = .ok (0, after))
    (hfi : after.sq = before.sq ++ [fi])
    (hdata : data.length ≤ fileSz)
    (hcq : s.cq = completion fi data.length data :: rest)
    (hentry : s.cbMap fd = some (cbInfoOf .readv file)) :
    HandsBytes s file data ↔
      (data.length = fileSz ∧ fileSz / 7 < 2 ^ 31) ∨ (data = [] ∧ 7 * 2 ^ 32 ∣ fileSz) := by
  have hfi' : fi = ⟨.readv, fileSz, fd, blankIovecs fileSz, owner⟩ := by
    rw [(pushReadRequest_eq_ok hpush).2] at hfi
    simpa using hfi.symm
  subst hfi'
  have hcall : ∀ effect, callOf (completion ⟨.readv, fileSz, fd, blankIovecs fileSz, owner⟩
      data.length data) (cbInfoOf .readv file) = some effect ↔
        ∃ buf, gather (readv (blankIovecs fileSz) data) (popBlocks fileSz) = some buf ∧
          effect = .readCb file.id buf := by
    intro effect
    simp only [callOf, completion, cbInfoOf, Option.map_some]
    cases gather (readv (blankIovecs fileSz) data) (popBlocks fileSz) with
    | none => simp
    | some buf => simp [eq_comm]
  rw [← gather_eq_data_iff hdata]
  refine ⟨fun h => ?_, fun h => ?_⟩
  · rcases h with ⟨t, hpop, hlog⟩
    rcases popRequest_cases hpop with ⟨hnil, -, -⟩ | ⟨c, r, hc, hneg, -, -⟩ |
      ⟨c, r, info, own, effect, hc, -, hinfo, hclose, heffect, -, ht⟩
    · simp [hnil] at hcq
    · rw [hcq] at hc
      cases hc
      simp [completion] at hneg
      omega
    · rw [hcq] at hc
      cases hc
      have hsame : info = cbInfoOf .readv file :=
        Option.some.inj (hinfo.symm.trans hentry)
      rw [hsame] at heffect
      rcases (hcall effect).mp heffect with ⟨buf, hbuf, rfl⟩
      rw [ht] at hlog
      simp [State.popped] at hlog
      rw [hbuf, hlog.2]
  · refine ⟨_, popRequest_of_entry hcq (by simp [completion]) hentry (close_cbInfoOf _ _)
      ((hcall _).mpr ⟨_, h, rfl⟩), rfl⟩

def twoByteRead (data : List UInt8) : State :=
  { State.init with
    cq := [completion ⟨.readv, 2, 3, blankIovecs 2, 0⟩ data.length data]
    cbMap := fun fd => if fd = 3 then some (cbInfoOf .readv ⟨0, 3⟩) else none }

theorem handsBytes_whole_file : HandsBytes (twoByteRead [104, 105]) ⟨0, 3⟩ [104, 105] :=
  (@handsBytes_iff (fun _ => true) 0 3 2 State.init
    { State.init with sq := [⟨.readv, 2, 3, blankIovecs 2, 0⟩] } (twoByteRead [104, 105])
    ⟨.readv, 2, 3, blankIovecs 2, 0⟩ [104, 105] [] ⟨0, 3⟩
    rfl rfl (by decide) rfl rfl).mpr (Or.inl (by decide))

/-- A file cut to one byte after `Stat` reported two: the callback gets a second
byte that the kernel never wrote. -/
theorem short_read_padded : ¬ HandsBytes (twoByteRead [104]) ⟨0, 3⟩ [104] := by
  rintro ⟨t, hpop, hlog⟩
  have hslice : popRequest (twoByteRead [104]) = .ok (0, (twoByteRead [104]).popped
      (completion ⟨.readv, 2, 3, blankIovecs 2, 0⟩ 1 [104]) ⟨0, 3⟩
        (.readCb 0 [some 104, none])) :=
    popRequest_of_entry rfl (by decide)
      (show (twoByteRead [104]).cbMap 3 = some (cbInfoOf .readv ⟨0, 3⟩) from rfl) rfl (by decide)
  rw [hslice] at hpop
  cases hpop
  exact absurd hlog (by decide)

end IoWrapper.FileRing.Pop
