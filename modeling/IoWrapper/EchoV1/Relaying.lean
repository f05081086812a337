import IoWrapper.EchoV1.FixedFiles
import IoWrapper.EchoV1.Transfers

/-! The first version is a relay on every file that its operations work on: what a receive has
put into the buffer of its descriptor is still there when the send reads it, since no other
operation has that buffer. With `-f` the files are those in the slots, and a connection that
comes to a descriptor with a filled slot is never served. -/
namespace IoWrapper.EchoV1.Relaying
open Core.Machine Core.Traffic Core.Relay Records FixedFiles Transfers
open EchoV1.Server (Setup Op Sqe Cqe Stop opened Answered Registered fixedSetup)

/-- The file that operations on the descriptor work on, or will once it is registered. -/
def home (u : Setup) (s : Server.State) (fd : Nat) : Option Nat :=
  if u.registerfiles = true ∧ s.registeredFiles fd ≠ -1 then s.slots fd else s.fds fd

def owedOp (bufs : Nat → List UInt8) : Op → List (Nat × List UInt8)
  | .send fd buf len => [(fd, (bufs buf).take len)]
  | .accept _ | .recv .. => []

def owedCqe (bufs : Nat → List UInt8) (cqe : Cqe) : List (Nat × List UInt8) :=
  match cqe.entry.op with
  | .recv fd buf _ => if 0 < cqe.res then [(fd, (bufs buf).take cqe.res.toNat)] else []
  | .accept _ | .send .. => []

def owed (bufs : Nat → List UInt8) (r : IoRing Sqe) : List (Nat × List UInt8) :=
  r.uncompleted.flatMap (fun sqe => owedOp bufs sqe.op) ++ r.cq.flatMap (owedCqe bufs)

def OwnBuffer : Op → Prop
  | .accept _ => True
  | .recv fd buf _ | .send fd buf _ => buf = fd

structure Kept (u : Setup) (s : Sys) : Prop where
  fixed : ∀ sqe ∈ s.server.ring.pending, sqe.fixedFile = u.registerfiles
  own : ∀ sqe ∈ s.server.ring.pending, OwnBuffer sqe.op
  homes : ∀ fd f, home u s.server fd = some f → f < s.server.files
  apart : ∀ fd fd' f, home u s.server fd = some f → home u s.server fd' = some f → fd' = fd
  fresh : ∀ f, s.server.files ≤ f → s.log f = []
  owing : ∀ p ∈ owed s.bufs s.server.ring,
    ∃ f, home u s.server p.1 = some f ∧ Makes (s.log f) (some p.2)
  even : ∀ fd f, home u s.server fd = some f →
    fd ∉ (owed s.bufs s.server.ring).map Prod.fst → Makes (s.log f) none
  made : ∀ f, ∃ held, Makes (s.log f) held

section Owed

variable {u : Setup} {bufs bufs' : Nat → List UInt8} {r : IoRing Sqe} {cqe : Cqe} {fd : Nat}

theorem owedOp_fd {op : Op} {p : Nat × List UInt8} (h : p ∈ owedOp bufs op) : p.1 = op.fd := by
  cases op with
  | send fd buf len =>
    cases List.mem_singleton.mp h
    rfl
  | _ => cases h

theorem owedCqe_fd {p : Nat × List UInt8} (h : p ∈ owedCqe bufs cqe) :
    p.1 = cqe.entry.op.fd := by
  unfold owedCqe at h
  cases hop : cqe.entry.op with
  | recv fd buf len =>
    simp only [hop] at h
    split at h
    · cases List.mem_singleton.mp h
      rfl
    · cases h
  | _ =>
    simp only [hop] at h
    cases h

theorem owed_fd {p : Nat × List UInt8} (h : p ∈ owed bufs r) :
    p.1 ∈ r.pending.map fun sqe => sqe.op.fd := by
  rcases List.mem_append.mp h with h | h
  · rcases List.mem_flatMap.mp h with ⟨sqe, hsqe, hp⟩
    rw [owedOp_fd hp]
    exact List.mem_map_of_mem (List.mem_append_left _ hsqe)
  · rcases List.mem_flatMap.mp h with ⟨cqe, hcqe, hp⟩
    rw [owedCqe_fd hp]
    exact List.mem_map_of_mem (IoRing.mem_pending_of_cq hcqe)

theorem owed_push (sqe : Sqe) :
    (owed bufs (r.push sqe)).Perm (owedOp bufs sqe.op ++ owed bufs r) := by
  have hmove := (IoRing.uncompleted_push r sqe).flatMap_right fun sqe => owedOp bufs sqe.op
  rw [List.flatMap_cons] at hmove
  have hall := hmove.append_right (r.cq.flatMap (owedCqe bufs))
  rw [List.append_assoc] at hall
  exact hall

theorem owed_submit (count : Nat) : (owed bufs (r.submit count)).Perm (owed bufs r) :=
  ((IoRing.uncompleted_submit r count).flatMap_right _).append_right _

theorem owed_seen {rest : List Cqe} (h : r.cq = cqe :: rest) :
    (owed bufs r).Perm (owedCqe bufs cqe ++ owed bufs r.seen) := by
  unfold owed
  rw [IoRing.seen_uncompleted, IoRing.seen_cq, h, List.tail_cons, List.flatMap_cons]
  exact List.perm_append_comm_assoc _ _ _

theorem owedCqe_eq_nil (h : cqe.entry.op.type = .read → cqe.res ≤ 0) : owedCqe bufs cqe = [] := by
  unfold owedCqe
  cases hop : cqe.entry.op with
  | recv fd buf len =>
    have hres := h (by rw [hop]; rfl)
    exact if_neg (by omega)
  | _ => rfl

theorem owedCqe_read (htype : cqe.entry.op.type = .read) (hres : 0 < cqe.res)
    (hown : OwnBuffer cqe.entry.op) :
    owedCqe bufs cqe = owedOp bufs (.send cqe.entry.op.fd cqe.entry.op.fd cqe.res.toNat) := by
  unfold owedCqe
  cases hop : cqe.entry.op with
  | recv fd buf len =>
    rw [hop] at hown
    cases hown
    exact if_pos hres
  | accept fd =>
    rw [hop] at htype
    cases htype
  | send fd buf len =>
    rw [hop] at htype
    cases htype

theorem owed_complete (bufs : Nat → List UInt8) {i : Nat} (h : r.inflight[i]? = some cqe.entry) :
    (owed bufs r).Perm (owedOp bufs cqe.entry.op ++ owed bufs (r.without i)) ∧
      (owed bufs (r.complete i cqe)).Perm (owedCqe bufs cqe ++ owed bufs (r.without i)) := by
  constructor
  · have hmove := (IoRing.uncompleted_complete h).flatMap_right fun sqe => owedOp bufs sqe.op
    rw [List.flatMap_cons] at hmove
    have hall := hmove.append_right (r.cq.flatMap (owedCqe bufs))
    rw [List.append_assoc] at hall
    exact hall
  · unfold owed
    rw [IoRing.complete_cq, List.flatMap_append, List.flatMap_singleton, ← List.append_assoc]
    exact List.perm_append_comm

theorem without_apart {i : Nat} (h : r.inflight[i]? = some cqe.entry)
    (hnodup : (r.pending.map fun sqe => sqe.op.fd).Nodup) :
    ∀ sqe ∈ (r.without i).pending, sqe ∈ r.pending ∧ sqe.op.fd ≠ cqe.entry.op.fd := by
  have hperm : r.pending.Perm (cqe.entry :: (r.without i).pending) :=
    (IoRing.uncompleted_complete h).append_right _
  have hcons := List.nodup_cons.mp ((hperm.map fun sqe => sqe.op.fd).nodup_iff.mp hnodup)
  intro sqe hsqe
  refine ⟨hperm.mem_iff.mpr (List.mem_cons_of_mem _ hsqe), fun heq => hcons.1 ?_⟩
  exact List.mem_map.mpr ⟨sqe, hsqe, heq⟩

theorem owed_congr (h : ∀ sqe ∈ r.pending, OwnBuffer sqe.op ∧ bufs' sqe.op.fd = bufs sqe.op.fd) :
    owed bufs' r = owed bufs r := by
  have hop : ∀ op : Op, OwnBuffer op → bufs' op.fd = bufs op.fd →
      owedOp bufs' op = owedOp bufs op := by
    intro op hown hsame
    cases op with
    | send fd buf len =>
      cases hown
      exact congrArg (fun bytes : List UInt8 => [(fd, bytes.take len)]) hsame
    | _ => rfl
  have hcqe : ∀ cqe : Cqe, OwnBuffer cqe.entry.op →
      bufs' cqe.entry.op.fd = bufs cqe.entry.op.fd → owedCqe bufs' cqe = owedCqe bufs cqe := by
    intro cqe hown hsame
    unfold owedCqe
    cases hentry : cqe.entry.op with
    | recv fd buf len =>
      rw [hentry] at hown hsame
      cases hown
      have hbuf : bufs' fd = bufs fd := hsame
      dsimp only
      rw [hbuf]
    | _ => rfl
  unfold owed
  congr 1
  · refine List.flatMap_congr fun sqe hsqe => ?_
    have hsame := h sqe (List.mem_append_left _ hsqe)
    exact hop sqe.op hsame.1 hsame.2
  · refine List.flatMap_congr fun cqe hmem => ?_
    have hsame := h cqe.entry (IoRing.mem_pending_of_cq hmem)
    exact hcqe cqe hsame.1 hsame.2

end Owed

section Moves

variable {u : Setup} {s : Sys} {cqe : Cqe} {fd : Nat}

theorem home_register {p : Server.State} {i : Nat} (hfixed : u.registerfiles = true)
    (hblank : p.registeredFiles i = -1) : home u (p.register i) fd = home u p fd := by
  unfold home
  by_cases heq : fd = i
  · subst heq
    have hset : (fd : Int) ≠ -1 := by omega
    simp [Server.State.register, hfixed, hblank, hset]
  · simp [Server.State.register, Function.update_of_ne heq]

theorem home_registered (fd : Nat) {p mid : Server.State} {res : Int}
    (h : Registered u p res mid) :
    home u mid fd = home u p fd := by
  cases h with
  | unused | kept => rfl
  | filled hfixed _ _ hblank => exact home_register hfixed hblank

theorem registered_files {p mid : Server.State} {res : Int} (h : Registered u p res mid) :
    mid.files = p.files := by
  cases h with
  | unused | kept | filled => rfl

theorem home_close_of_ne {p : Server.State} {closed : Nat} (hne : fd ≠ closed) :
    home u (p.close closed) fd = home u p fd := by
  simp [home, Server.State.close, Function.update_of_ne hne]

theorem home_close {p : Server.State} {closed f : Nat}
    (h : home u (p.close closed) fd = some f) : home u p fd = some f := by
  by_cases heq : fd = closed
  · subst heq
    unfold home at h ⊢
    split at h
    · rename_i hset
      exact (if_pos hset).trans h
    · simp [Server.State.close] at h
  · rw [← home_close_of_ne heq]
    exact h

theorem Kept.handled {t : Server.State} (h : Kept u s)
    (hpending : ∀ sqe ∈ t.ring.pending, sqe ∈ s.server.ring.pending ∨
      sqe.fixedFile = u.registerfiles ∧ OwnBuffer sqe.op)
    (howed : (owed s.bufs t.ring).Perm (owed s.bufs s.server.ring))
    (hhome : ∀ fd f, home u t fd = some f → home u s.server fd = some f)
    (hkeep : ∀ p ∈ owed s.bufs s.server.ring, home u t p.1 = home u s.server p.1)
    (hfiles : t.files = s.server.files) : Kept u { s with server := t } := by
  constructor
  case fixed =>
    intro sqe hsqe
    rcases hpending sqe hsqe with hold | hnew
    · exact h.fixed sqe hold
    · exact hnew.1
  case own =>
    intro sqe hsqe
    rcases hpending sqe hsqe with hold | hnew
    · exact h.own sqe hold
    · exact hnew.2
  case homes =>
    intro fd f hf
    exact Nat.lt_of_lt_of_eq (h.homes fd f (hhome fd f hf)) hfiles.symm
  case apart => exact fun fd fd' f hf hf' => h.apart fd fd' f (hhome fd f hf) (hhome fd' f hf')
  case fresh =>
    intro f hf
    exact h.fresh f (hfiles ▸ hf)
  case owing =>
    intro p hp
    have hold := howed.mem_iff.mp hp
    rcases h.owing p hold with ⟨f, hf, hmakes⟩
    exact ⟨f, (hkeep p hold).trans hf, hmakes⟩
  case even =>
    intro fd f hf hnone
    exact h.even fd f (hhome fd f hf) fun hin => hnone ((howed.map _).mem_iff.mpr hin)
  case made => exact h.made

theorem Kept.answered {t : Server.State} {rest : List Cqe} (h : Kept u s)
    (hwired : Wired u s.server) (hbatch : s.server.batch = cqe :: rest)
    (ht : Answered u { s.server with batch := rest } cqe t) : Kept u { s with server := t } := by
  have hhead := hwired.head hbatch
  have hconns := hwired.conns_userData hhead.pending
  rcases hwired.batch with ⟨more, hmore⟩
  rw [hbatch, List.cons_append] at hmore
  have hseen : (owed s.bufs s.server.ring).Perm
      (owedCqe s.bufs cqe ++ owed s.bufs s.server.ring.seen) := owed_seen hmore.symm
  have hpush : ∀ {r : IoRing Sqe} {op : Op} {connI : Nat}, OwnBuffer op →
      (∀ sqe ∈ r.pending, sqe ∈ s.server.ring.pending ∨
        sqe.fixedFile = u.registerfiles ∧ OwnBuffer sqe.op) →
      ∀ sqe ∈ (r.push ⟨op, u.registerfiles, connI⟩).pending, sqe ∈ s.server.ring.pending ∨
        sqe.fixedFile = u.registerfiles ∧ OwnBuffer sqe.op := by
    intro r op connI hown hold sqe hsqe
    rcases List.mem_cons.mp ((IoRing.pending_push r _).mem_iff.mp hsqe) with rfl | hsqe
    · exact Or.inr ⟨rfl, hown⟩
    · exact hold sqe hsqe
  have hold : ∀ sqe ∈ s.server.ring.seen.pending, sqe ∈ s.server.ring.pending ∨
      sqe.fixedFile = u.registerfiles ∧ OwnBuffer sqe.op :=
    fun sqe hsqe => Or.inl (IoRing.mem_pending_of_seen hsqe)
  cases ht with
  | @accepted mid htype hpos hlt hregistered =>
    simp only [hconns] at htype
    have hring := registered_ring hregistered
    have hfiles := registered_files hregistered
    have hhome := fun fd => home_registered fd hregistered
    rw [owedCqe_eq_nil (by simp [htype])] at hseen
    refine h.handled ?_ ?_ ?_ ?_ hfiles
    · exact hpush rfl (hpush trivial (hring ▸ hold))
    · refine (owed_push _).trans ((owed_push _).trans ?_)
      rw [hring]
      exact hseen.symm
    · intro fd f hf
      exact (hhome fd).symm.trans hf
    · exact fun p _ => hhome p.1
  | hungUp htype hres =>
    simp only [hconns] at htype ⊢
    rw [owedCqe_eq_nil fun _ => hres] at hseen
    refine h.handled hold hseen.symm (fun fd f => home_close) ?_ rfl
    intro p hp
    apply home_close_of_ne
    intro heq
    apply hhead.fd
    rw [← heq]
    exact List.mem_append_left _ (owed_fd (hseen.mem_iff.mp hp))
  | received htype hres hlt =>
    simp only [hconns] at htype ⊢
    rw [owedCqe_read htype hres (h.own _ hhead.pending)] at hseen
    exact h.handled (hpush rfl hold) ((owed_push _).trans hseen.symm) (fun _ _ => id)
      (fun _ _ => rfl) rfl
  | sent htype hlt =>
    simp only [hconns] at htype ⊢
    rw [owedCqe_eq_nil (by simp [htype])] at hseen
    exact h.handled (hpush rfl hold) ((owed_push _).trans hseen.symm) (fun _ _ => id)
      (fun _ _ => rfl) rfl
  | ignored htype hread hwrite =>
    simp only [hconns] at htype hread hwrite
    cases hop : cqe.entry.op with
    | accept => exact absurd (by rw [hop]; rfl) htype
    | recv => exact absurd (by rw [hop]; rfl) hread
    | send => exact absurd (by rw [hop]; rfl) hwrite

theorem target_of_served {p : Server.State} {sqe : Sqe}
    (h : Reachable (Server.step u) (Server.State.init u) p) (hsqe : sqe ∈ p.ring.pending)
    (htype : sqe.op.type ≠ .accept) (hflag : sqe.fixedFile = u.registerfiles) :
    ∃ f, target p sqe = some f ∧ home u p sqe.op.fd = some f := by
  have hopen : p.fds sqe.op.fd ≠ none := (wired_of_reachable h).isOpen _
    (List.mem_append_left _ (List.mem_map_of_mem hsqe))
  rcases Option.ne_none_iff_exists'.mp hopen with ⟨file, hfile⟩
  unfold target home
  rw [hflag]
  cases hfixed : u.registerfiles with
  | false => exact ⟨file, hfile, by simpa using hfile⟩
  | true =>
    have hslotted := slotted_of_reachable hfixed h
    by_cases hclosed : sqe.op.fd ∈ p.closed
    · rcases hslotted.stale _ hclosed with ⟨hset, f, hslot, -⟩
      exact ⟨f, hslot, (if_pos ⟨rfl, hset⟩).trans hslot⟩
    · rcases hslotted.current _ hclosed ⟨sqe, hsqe, htype, rfl⟩ with ⟨hset, hslot⟩
      exact ⟨file, hslot.trans hfile, (if_pos ⟨rfl, hset⟩).trans (hslot.trans hfile)⟩

theorem home_completed {p : Server.State} (i : Nat) (hfd : fd ∉ opened cqe) :
    home u (p.completed i cqe) fd = home u p fd := by
  simp [home, Server.State.completed, hfd]

theorem home_opened {p : Server.State} {i f : Nat}
    (h : home u (p.completed i cqe) fd = some f) :
    home u p fd = some f ∨ fd ∈ opened cqe ∧ f = p.files := by
  by_cases hfd : fd ∈ opened cqe
  · unfold home at h ⊢
    split at h
    · rename_i hset
      exact Or.inl ((if_pos hset).trans h)
    · simp only [Server.State.completed, hfd, if_true, Option.some.injEq] at h
      exact Or.inr ⟨hfd, h.symm⟩
  · rw [home_completed i hfd] at h
    exact Or.inl h

theorem mem_pending_complete {r : IoRing Sqe} {i : Nat} (hsqe : r.inflight[i]? = some cqe.entry)
    {sqe : Sqe} (h : sqe ∈ (r.complete i cqe).pending) : sqe ∈ r.pending :=
  (IoRing.pending_complete hsqe).mem_iff.mp h

theorem Kept.owed_complete_apart {i : Nat} {bufs : Nat → List UInt8} (h : Kept u s)
    (hwired : Wired u s.server) (hsqe : s.server.ring.inflight[i]? = some cqe.entry)
    (hbufs : ∀ fd, fd ≠ cqe.entry.op.fd → bufs fd = s.bufs fd) :
    ∃ others, (owed s.bufs s.server.ring).Perm (owedOp s.bufs cqe.entry.op ++ others) ∧
      (owed bufs (s.server.completed i cqe).ring).Perm (owedCqe bufs cqe ++ others) ∧
      ∀ p ∈ others, p.1 ≠ cqe.entry.op.fd := by
  have hapart := without_apart hsqe (List.nodup_append.mp hwired.nodup).1
  have hrest : owed bufs (s.server.ring.without i) = owed s.bufs (s.server.ring.without i) := by
    apply owed_congr
    intro sqe hmem
    exact ⟨h.own sqe (hapart sqe hmem).1, hbufs _ (hapart sqe hmem).2⟩
  refine ⟨owed s.bufs (s.server.ring.without i), (owed_complete s.bufs hsqe).1, ?_, ?_⟩
  · rw [← hrest]
    exact (owed_complete bufs hsqe).2
  · intro p hp
    rcases List.mem_map.mp (owed_fd hp) with ⟨sqe, hmem, heq⟩
    rw [← heq]
    exact (hapart sqe hmem).2

theorem Kept.transferred {i f : Nat} {bufs : Nat → List UInt8} {log : List (Transfer UInt8)}
    (h : Kept u s) (chunk : Option (List UInt8)) (hwired : Wired u s.server)
    (hsqe : s.server.ring.inflight[i]? = some cqe.entry) (hopened : opened cqe = [])
    (hf : home u s.server cqe.entry.op.fd = some f) (hmakes : Makes log chunk)
    (hbufs : ∀ fd, fd ≠ cqe.entry.op.fd → bufs fd = s.bufs fd)
    (howes : owedCqe bufs cqe = chunk.toList.map fun c => (cqe.entry.op.fd, c)) :
    Kept u ⟨s.server.completed i cqe, bufs, Function.update s.log f log⟩ := by
  rcases h.owed_complete_apart hwired hsqe hbufs with ⟨others, howed, howed', hother⟩
  rw [howes] at howed'
  have hhome : ∀ fd, home u (s.server.completed i cqe) fd = home u s.server fd :=
    fun fd => home_completed i (by simp [hopened])
  have hfiles : (s.server.completed i cqe).files = s.server.files := by
    simp [Server.State.completed, hopened]
  have hlog : ∀ fd f', fd ≠ cqe.entry.op.fd → home u s.server fd = some f' →
      Function.update s.log f log f' = s.log f' := by
    -- No other descriptor works on the file that has the new transfer.
    intro fd f' hne hf'
    apply Function.update_of_ne
    rintro rfl
    exact hne (h.apart _ _ _ hf hf')
  constructor
  case fixed => exact fun sqe hmem => h.fixed sqe (mem_pending_complete hsqe hmem)
  case own => exact fun sqe hmem => h.own sqe (mem_pending_complete hsqe hmem)
  case homes =>
    intro fd f' hf'
    rw [hhome] at hf'
    exact Nat.lt_of_lt_of_eq (h.homes fd f' hf') hfiles.symm
  case apart =>
    intro fd fd' f' hfd hfd'
    rw [hhome] at hfd hfd'
    exact h.apart fd fd' f' hfd hfd'
  case fresh =>
    intro f' hf'
    dsimp only at hf' ⊢
    rw [hfiles] at hf'
    have hne : f' ≠ f := Nat.ne_of_gt (Nat.lt_of_lt_of_le (h.homes _ f hf) hf')
    rw [Function.update_of_ne hne]
    exact h.fresh f' hf'
  case owing =>
    intro p hp
    dsimp only at hp ⊢
    rcases List.mem_append.mp (howed'.mem_iff.mp hp) with hnew | hold
    · rcases List.mem_map.mp hnew with ⟨c, hc, rfl⟩
      refine ⟨f, (hhome _).trans hf, ?_⟩
      rw [Function.update_self, ← Option.mem_toList.mp hc]
      exact hmakes
    · rcases h.owing p (howed.mem_iff.mpr (List.mem_append_right _ hold)) with ⟨f', hf', hmakes'⟩
      refine ⟨f', (hhome _).trans hf', ?_⟩
      rw [hlog p.1 f' (hother p hold) hf']
      exact hmakes'
  case even =>
    intro fd f' hf' hnone
    dsimp only at hf' hnone ⊢
    rw [hhome] at hf'
    rw [(howed'.map _).mem_iff, List.map_append, List.mem_append, not_or] at hnone
    by_cases heq : fd = cqe.entry.op.fd
    · subst heq
      cases hf.symm.trans hf'
      rw [Function.update_self]
      cases chunk with
      | none => exact hmakes
      | some c => simp at hnone
    · rw [hlog fd f' heq hf']
      apply h.even fd f' hf'
      intro hin
      rw [(howed.map _).mem_iff, List.map_append, List.mem_append] at hin
      rcases hin with hin | hin
      · rcases List.mem_map.mp hin with ⟨p, hp, rfl⟩
        exact heq (owedOp_fd hp)
      · exact hnone.2 hin
  case made =>
    intro f'
    dsimp only
    by_cases heq : f' = f
    · rw [heq, Function.update_self]
      exact ⟨chunk, hmakes⟩
    · rw [Function.update_of_ne heq]
      exact h.made f'

theorem Kept.opened {i : Nat} (h : Kept u s) (hwired : Wired u s.server)
    (hsqe : s.server.ring.inflight[i]? = some cqe.entry) (hpossible : s.server.Possible cqe)
    (htype : cqe.entry.op.type = .accept) :
    Kept u { s with server := s.server.completed i cqe } := by
  have howed : (owed s.bufs (s.server.completed i cqe).ring).Perm (owed s.bufs s.server.ring) := by
    rcases owed_complete s.bufs hsqe with ⟨hbefore, hafter⟩
    cases hop : cqe.entry.op with
    | accept fd =>
      rw [owedCqe_eq_nil (by simp [htype])] at hafter
      rw [hop] at hbefore
      exact hafter.trans hbefore.symm
    | recv fd buf len | send fd buf len =>
      rw [hop] at htype
      cases htype
  have hnew : ∀ p ∈ owed s.bufs s.server.ring, p.1 ∉ Server.opened cqe := by
    intro p hp hin
    exact hwired.isOpen p.1 (List.mem_append_left _ (owed_fd hp)) (hpossible.2.2 p.1 hin)
  have hmore : s.server.files ≤ (s.server.completed i cqe).files := Nat.le_add_right _ _
  constructor
  case fixed => exact fun sqe hmem => h.fixed sqe (mem_pending_complete hsqe hmem)
  case own => exact fun sqe hmem => h.own sqe (mem_pending_complete hsqe hmem)
  case homes =>
    intro fd f hf
    rcases home_opened hf with hold | ⟨hin, rfl⟩
    · exact Nat.lt_of_lt_of_le (h.homes fd f hold) hmore
    · exact Nat.lt_add_of_pos_right (List.length_pos_of_mem hin)
  case apart =>
    intro fd fd' f hf hf'
    rcases home_opened hf with hold | ⟨hin, rfl⟩
    · rcases home_opened hf' with hold' | ⟨-, rfl⟩
      · exact h.apart fd fd' f hold hold'
      · exact absurd (h.homes fd _ hold) (Nat.lt_irrefl _)
    · rcases home_opened hf' with hold' | ⟨hin', -⟩
      · exact absurd (h.homes fd' _ hold') (Nat.lt_irrefl _)
      · unfold Server.opened at hin hin'
        split at hin
        · rename_i haccept
          rw [if_pos haccept] at hin'
          exact (List.mem_singleton.mp hin').trans (List.mem_singleton.mp hin).symm
        · cases hin
  case fresh => exact fun f hf => h.fresh f (Nat.le_trans hmore hf)
  case owing =>
    intro p hp
    have hold := howed.mem_iff.mp hp
    rcases h.owing p hold with ⟨f, hf, hmakes⟩
    exact ⟨f, (home_completed i (hnew p hold)).trans hf, hmakes⟩
  case even =>
    intro fd f hf hnone
    rcases home_opened hf with hold | ⟨-, rfl⟩
    · exact h.even fd f hold fun hin => hnone ((howed.map _).mem_iff.mpr hin)
    · have hblank := h.fresh _ (Nat.le_refl _)
      dsimp only
      rw [hblank]
      exact makes_nil
  case made => exact h.made

end Moves

section Runs

variable {u : Setup} {bufs : Nat → List UInt8} {s t : Sys} {cqe : Cqe}

theorem opened_eq_nil (htype : cqe.entry.op.type ≠ .accept) : opened cqe = [] :=
  if_neg fun hboth => htype hboth.1

theorem transfer_accept {sqe : Sqe} (htype : sqe.op.type = .accept) (res : Int)
    (data : List UInt8) : s.transfer sqe res data = s := by
  unfold Sys.transfer
  cases hop : sqe.op with
  | accept fd =>
    cases target s.server sqe with
    | none => rfl
    | some f => simp [stored, transfers]
  | recv fd buf len | send fd buf len =>
    rw [hop] at htype
    cases htype

theorem transfer_of_target {sqe : Sqe} {f : Nat} (h : target s.server sqe = some f) (res : Int)
    (data : List UInt8) : s.transfer sqe res data =
      { s with
        bufs := stored s.bufs sqe.op data
        log := Function.update s.log f (s.log f ++ transfers s.bufs sqe.op res data) } := by
  unfold Sys.transfer
  rw [h]

theorem not_owed {sqe : Sqe} (hwired : Wired u s.server)
    (hsqe : sqe ∈ s.server.ring.uncompleted) (hnone : owedOp s.bufs sqe.op = []) :
    sqe.op.fd ∉ (owed s.bufs s.server.ring).map Prod.fst := by
  have hnodup := (List.nodup_append.mp hwired.nodup).1
  rw [IoRing.pending, List.map_append] at hnodup
  rcases List.nodup_append.mp hnodup with ⟨hfds, -, hdisjoint⟩
  intro hin
  rcases List.mem_map.mp hin with ⟨p, hp, hfd⟩
  rcases List.mem_append.mp hp with hp | hp
  · rcases List.mem_flatMap.mp hp with ⟨other, hother, hp⟩
    have hsame := List.inj_on_of_nodup_map hfds hother hsqe ((owedOp_fd hp).symm.trans hfd)
    rw [hsame, hnone] at hp
    cases hp
  · rcases List.mem_flatMap.mp hp with ⟨cqe, hcqe, hp⟩
    exact hdisjoint _ (List.mem_map_of_mem hsqe) _
      (List.mem_map_of_mem (List.mem_map_of_mem hcqe)) (hfd.symm.trans (owedCqe_fd hp))

theorem Kept.sends {i fd buf len f : Nat} {sqe : Sqe} (h : Kept u s)
    (hsqe : s.server.ring.inflight[i]? = some sqe) (hop : sqe.op = .send fd buf len)
    (hf : home u s.server fd = some f) : Makes (s.log f) (some ((s.bufs buf).take len)) := by
  have howes : (fd, (s.bufs buf).take len) ∈ owed s.bufs s.server.ring := by
    apply List.mem_append_left
    refine List.mem_flatMap.mpr ⟨sqe, List.mem_append_right _ (List.mem_of_getElem? hsqe), ?_⟩
    rw [hop]
    exact List.mem_singleton_self _
  rcases h.owing _ howes with ⟨f', hf', hmakes⟩
  cases hf.symm.trans hf'
  exact hmakes

theorem Kept.completed {i : Nat} {data : List UInt8} (h : Kept u s)
    (hreach : Reachable (Server.step u) (Server.State.init u) s.server)
    (hsqe : s.server.ring.inflight[i]? = some cqe.entry)
    (hdelivers : Delivers s.server cqe.entry cqe.res data) (hpossible : s.server.Possible cqe) :
    Kept u { s.transfer cqe.entry cqe.res data with server := s.server.completed i cqe } := by
  have hwired := wired_of_reachable hreach
  have huncompleted : cqe.entry ∈ s.server.ring.uncompleted :=
    List.mem_append_right _ (List.mem_of_getElem? hsqe)
  have hmem : cqe.entry ∈ s.server.ring.pending := List.mem_append_left _ huncompleted
  by_cases htype : cqe.entry.op.type = .accept
  · rw [transfer_accept htype]
    exact h.opened hwired hsqe hpossible htype
  · rcases target_of_served hreach hmem htype (h.fixed _ hmem) with ⟨f, htarget, hf⟩
    have hown := h.own _ hmem
    have hreceived := hdelivers.2
    rw [transfer_of_target htarget]
    rcases cqe with ⟨⟨op, fixedFile, userData⟩, res⟩
    cases op with
    | accept fd => exact absurd rfl htype
    | recv fd buf len =>
      cases hown
      rcases hreceived with ⟨hlen, -⟩
      have hnone := h.even fd f hf (not_owed hwired huncompleted rfl)
      by_cases hres : 0 < res
      · apply h.transferred (some data) hwired hsqe (opened_eq_nil htype) hf
        · simp only [transfers, if_pos hres]
          exact hnone.took data
        · exact fun other hne => Function.update_of_ne hne ..
        · simp [owedCqe, stored, hres, ← hlen]
      · apply h.transferred none hwired hsqe (opened_eq_nil htype) hf
        · simp only [transfers, if_neg hres, List.append_nil]
          exact hnone
        · exact fun other hne => Function.update_of_ne hne ..
        · simp [owedCqe, hres]
    | send fd buf len =>
      rcases hreceived with ⟨-, hle⟩
      apply h.transferred none hwired hsqe (opened_eq_nil htype) hf
      · exact (h.sends hsqe rfl hf).gave (List.take_prefix_take_left (by omega))
      · exact fun other hne => rfl
      · rfl

theorem Kept.step {event : Event} (h : Kept u s)
    (hreach : Reachable (Server.step u) (Server.State.init u) s.server)
    (hstep : step u s event = some t) : Kept u t := by
  cases step_sound hstep with
  | @served event t hown hnext =>
    cases Server.step_sound hnext with
    | submitted =>
      exact h.handled (fun sqe hsqe => Or.inl ((IoRing.pending_submit _ _).mem_iff.mp hsqe))
        (owed_submit _) (fun _ _ => id) (fun _ _ => rfl) rfl
    | answered hpc hbatch hanswered =>
      exact h.answered (wired_of_reachable hreach) hbatch hanswered
    | completed => cases hown
    | _ =>
      exact h.handled (fun sqe => Or.inl) (List.Perm.refl _) (fun _ _ => id) (fun _ _ => rfl) rfl
  | completed hsqe hdelivers hpossible => exact h.completed hreach hsqe hdelivers hpossible

theorem home_listening (fd : Nat) :
    home u (Server.State.listening u) fd = if fd = u.sockListenFd then some 0 else none := by
  have hblank : home u (Server.State.blank u) fd =
      if fd = u.sockListenFd then some 0 else none := by
    simp [home, Server.State.blank, Function.update_apply]
  unfold Server.State.listening
  split
  · rename_i hfixed
    rw [home_register hfixed rfl]
    exact hblank
  · exact hblank

theorem kept_of_listening {p : Server.State} (hhome : home u p = home u (Server.State.listening u))
    (hfiles : p.files = 1)
    (hpending : ∀ sqe ∈ p.ring.pending, sqe.fixedFile = u.registerfiles ∧ OwnBuffer sqe.op)
    (howed : owed bufs p.ring = []) : Kept u ⟨p, bufs, fun _ => []⟩ := by
  have hlisten : ∀ {fd f : Nat}, home u p fd = some f → fd = u.sockListenFd ∧ f = 0 := by
    intro fd f hf
    rw [hhome, home_listening, Option.ite_none_right_eq_some, Option.some.injEq] at hf
    exact ⟨hf.1, hf.2.symm⟩
  constructor
  case fixed => exact fun sqe hsqe => (hpending sqe hsqe).1
  case own => exact fun sqe hsqe => (hpending sqe hsqe).2
  case homes =>
    intro fd f hf
    dsimp only
    rw [(hlisten hf).2, hfiles]
    exact Nat.one_pos
  case apart => exact fun fd fd' f hf hf' => (hlisten hf').1.trans (hlisten hf).1.symm
  case fresh => exact fun _ _ => rfl
  case owing =>
    intro p hp
    dsimp only at hp
    rw [howed] at hp
    cases hp
  case even => exact fun _ _ _ _ => makes_nil
  case made => exact fun _ => ⟨none, makes_nil⟩

theorem listening_files : (Server.State.listening u).files = 1 := by
  unfold Server.State.listening
  split <;> rfl

theorem kept_init : Kept u (Sys.init u bufs) := by
  have hring := (listening_ring u).1
  unfold Sys.init Server.State.init
  split
  · rename_i p hp
    rcases Server.addAccept_eq_ok hp with ⟨-, -, rfl⟩
    refine kept_of_listening rfl listening_files ?_ ?_
    · intro sqe hsqe
      rcases List.mem_cons.mp ((IoRing.pending_push _ _).mem_iff.mp hsqe) with rfl | hsqe
      · exact ⟨rfl, trivial⟩
      · rw [hring, IoRing.pending_empty] at hsqe
        cases hsqe
    · apply List.Perm.eq_nil
      refine (owed_push _).trans ?_
      rw [hring]
      exact List.Perm.refl _
  · refine kept_of_listening rfl listening_files ?_ ?_
    · intro sqe hsqe
      rw [hring, IoRing.pending_empty] at hsqe
      cases hsqe
    · rw [hring]
      rfl

theorem kept_of_reachable (h : Reachable (step u) (Sys.init u bufs) s) : Kept u s :=
  h.invariant (Kept u) kept_init fun _ _ _ hreach hs hstep =>
    hs.step (server_reachable hreach) hstep

theorem relays_at {sqe : Sqe} (h : Reachable (step u) (Sys.init u bufs) s)
    (hsqe : sqe ∈ s.server.ring.uncompleted) (htype : sqe.op.type = .read) :
    ∃ f, target s.server sqe = some f ∧ Makes (s.log f) none := by
  have hkept := kept_of_reachable h
  have hserver := server_reachable h
  have hmem : sqe ∈ s.server.ring.pending := List.mem_append_left _ hsqe
  rcases target_of_served hserver hmem (by simp [htype]) (hkept.fixed sqe hmem) with
    ⟨f, htarget, hf⟩
  refine ⟨f, htarget, hkept.even _ f hf (not_owed (wired_of_reachable hserver) hsqe ?_)⟩
  cases hop : sqe.op with
  | recv fd buf len => rfl
  | accept fd | send fd buf len =>
    rw [hop] at htype
    cases htype

/-- The transfers on every file are those of a relay, and it has answered all that it has
taken whenever a receive is under way. -/
theorem relays (h : Reachable (step u) (Sys.init u bufs) s) :
    (∀ f, ∃ held, Makes (s.log f) held) ∧
      ∀ sqe ∈ s.server.ring.uncompleted, sqe.op.type = .read →
        ∃ f, target s.server sqe = some f ∧ Makes (s.log f) none :=
  ⟨(kept_of_reachable h).made, fun _ hsqe htype => relays_at h hsqe htype⟩

end Runs

section Whole

variable {u : Setup} {bufs : Nat → List UInt8} {s t : Sys}

def SentWhole (res : Int) : Op → Prop
  | .send _ _ len => res = len
  | .accept _ | .recv .. => True

instance (res : Int) : (op : Op) → Decidable (SentWhole res op)
  | .send _ _ len => inferInstanceAs (Decidable (res = len))
  | .accept _ | .recv .. => inferInstanceAs (Decidable True)

/-- Every send completes with all its bytes sent. -/
def Whole (s : Sys) : Event → Prop
  | .complete i res _ => ∀ sqe ∈ s.server.ring.inflight[i]?, SentWhole res sqe.op
  | .server _ => True

instance (s : Sys) : (event : Event) → Decidable (Whole s event)
  | .complete i _ _ => inferInstanceAs (Decidable (∀ sqe ∈ s.server.ring.inflight[i]?, _))
  | .server _ => inferInstanceAs (Decidable True)

theorem lossless_step {event : Event} (h : ∀ f, Lossless (s.log f)) (hkept : Kept u s)
    (hreach : Reachable (Server.step u) (Server.State.init u) s.server) (hwhole : Whole s event)
    (hstep : step u s event = some t) : ∀ f, Lossless (t.log f) := by
  cases step_sound hstep with
  | served => exact h
  | @completed i cqe data hsqe hdelivers hpossible =>
    have hmem : cqe.entry ∈ s.server.ring.pending :=
      List.mem_append_left _ (List.mem_append_right _ (List.mem_of_getElem? hsqe))
    by_cases htype : cqe.entry.op.type = .accept
    · rw [transfer_accept htype]
      exact h
    · rcases target_of_served hreach hmem htype (hkept.fixed _ hmem) with ⟨f, htarget, hf⟩
      rw [transfer_of_target htarget]
      intro f'
      dsimp only
      by_cases heq : f' = f
      · subst heq
        rw [Function.update_self]
        have hsent := hwhole _ hsqe
        cases hop : cqe.entry.op with
        | accept fd =>
          rw [hop] at htype
          exact absurd rfl htype
        | recv fd buf len =>
          unfold transfers
          dsimp only
          split
          · exact (h f').took data
          · rw [List.append_nil]
            exact h f'
        | send fd buf len =>
          rw [hop] at hsent hf
          have hres : cqe.res.toNat = len := by
            rw [show cqe.res = len from hsent, Int.toNat_natCast]
          unfold transfers
          dsimp only
          rw [hres]
          exact (h f').gave (hkept.sends hsqe hop hf)
      · rw [Function.update_of_ne heq]
        exact h f'

/-- If every send is whole, then a connection has been given all that was taken from it
whenever a receive is under way on it. -/
theorem echoes_of_whole (h : Reachable (restrict Whole (step u)) (Sys.init u bufs) s) :
    ∀ sqe ∈ s.server.ring.uncompleted, sqe.op.type = .read →
      ∃ f, target s.server sqe = some f ∧ given (s.log f) = taken (s.log f) := by
  have hlossless : ∀ f, Lossless (s.log f) := by
    apply h.invariant fun s => ∀ f, Lossless (s.log f)
    · exact fun f => lossless_nil
    · intro s event t hreach hs hstep
      rcases restrict_eq_some.mp hstep with ⟨hwhole, hnext⟩
      have hfree := hreach.of_restrict
      exact lossless_step hs (kept_of_reachable hfree) (server_reachable hfree) hwhole hnext
  intro sqe hsqe htype
  rcases relays_at (h.of_restrict) hsqe htype with ⟨f, htarget, hmakes⟩
  exact ⟨f, htarget, (hlossless f).given_eq hmakes⟩

end Whole

def oneEcho (res : Int) : List Event :=
  [.server (.submit 1), .complete 0 5 [], .server .peek, .server (.handle 1), .server .endBatch,
    .server (.submit 2), .complete 1 3 [7, 8, 9], .server .peek, .server (.handle 1),
    .server .endBatch, .server (.submit 1), .complete 1 res [], .server .peek,
    .server (.handle 1), .server .endBatch]

theorem relays_short : ∃ s, Reachable (step fixedSetup) (Sys.init fixedSetup fun _ => []) s ∧
    s.log 1 = [.took [7, 8, 9], .gave [7, 8]] ∧ (∀ f, ∃ held, Makes (s.log f) held) ∧
    ∀ sqe ∈ s.server.ring.uncompleted, sqe.op.type = .read →
      ∃ f, target s.server sqe = some f ∧ Makes (s.log f) none := by
  have hview : (run (step fixedSetup) (Sys.init fixedSetup fun _ => []) (oneEcho 2)).map
      (fun s => s.log 1) = some [.took [7, 8, 9], .gave [7, 8]] := by decide +kernel
  rcases Reachable.of_view hview with ⟨s, hreach, hlog⟩
  exact ⟨s, hreach, hlog, relays hreach⟩

theorem echoes_of_whole_three : ∃ s sqe,
    Reachable (restrict Whole (step fixedSetup)) (Sys.init fixedSetup fun _ => []) s ∧
    sqe ∈ s.server.ring.uncompleted ∧ sqe.op.type = .read ∧
    ∃ f, target s.server sqe = some f ∧ given (s.log f) = taken (s.log f) := by
  have hview : (run (restrict Whole (step fixedSetup)) (Sys.init fixedSetup fun _ => [])
      (oneEcho 3)).map (fun s => s.server.ring.sq) = some [⟨.recv 5 5 2046, true, 5⟩] := by
    decide +kernel
  rcases Reachable.of_view hview with ⟨s, hreach, hqueue⟩
  have hsqe : (⟨.recv 5 5 2046, true, 5⟩ : Sqe) ∈ s.server.ring.uncompleted := by
    simp [IoRing.uncompleted, hqueue]
  exact ⟨s, _, hreach, hsqe, rfl, echoes_of_whole hreach _ hsqe rfl⟩

end IoWrapper.EchoV1.Relaying
