import IoWrapper.Core.Registry
import IoWrapper.EchoV1.Relaying

/-! Connections that are never served. With `-f` operations work on the files in the slots, and
a slot is filled once; a connection under a descriptor whose slot holds the file of an earlier
one is out of their reach for good. -/
namespace IoWrapper.EchoV1.Strays
open Core.Collections Core.Machine Core.Registry Core.Traffic Core.Relay Records Transfers
  Relaying
open EchoV1.Server (Setup Op Sqe Cqe Answered Registered fixedSetup)

structure Table where
  fds : Nat → Option Nat
  slots : Nat → Option Nat
  marks : Nat → Int
  files : Nat

def table (p : Server.State) : Table := ⟨p.fds, p.slots, p.registeredFiles, p.files⟩

inductive Change (a : Table) : Table → Prop where
  | none : Change a a
  | registered (fd : Nat) (hblank : a.marks fd = -1) :
      Change a { a with
        slots := Function.update a.slots fd (a.fds fd)
        marks := Function.update a.marks fd fd }
  | closed (fd : Nat) : Change a { a with fds := Function.update a.fds fd Option.none }
  | opened (fd : Nat) (hfree : a.fds fd = Option.none) :
      Change a { a with
        fds := Function.update a.fds fd (some a.files)
        files := a.files + 1 }

section Changes

variable {u : Setup} {p q : Server.State} {cqe : Cqe}

theorem change_registered {res : Int} (h : Registered u p res q) : Change (table p) (table q) := by
  cases h with
  | unused | kept => exact .none
  | filled _ _ _ hblank => exact .registered _ hblank

theorem change_answered (h : Answered u p cqe q) : Change (table p) (table q) := by
  cases h with
  | accepted _ _ _ hregistered =>
    have hmid := change_registered hregistered
    exact hmid
  | hungUp => exact .closed _
  | received | sent | ignored => exact .none

theorem change_completed {i : Nat} (hpossible : p.Possible cqe) :
    Change (table p) (table (p.completed i cqe)) := by
  have hfree := hpossible.2.2
  by_cases haccept : cqe.entry.op.type = .accept ∧ 0 ≤ cqe.res
  · have hopened : Server.opened cqe = [cqe.res.toNat] := if_pos haccept
    have htable : table (p.completed i cqe) =
        { table p with
          fds := Function.update p.fds cqe.res.toNat (some p.files)
          files := p.files + 1 } := by
      simp only [table, Server.State.completed, hopened, List.mem_singleton, List.length_singleton,
        Table.mk.injEq, and_true]
      funext fd
      rw [Function.update_apply]
    rw [htable]
    exact .opened _ (hfree _ (by simp [hopened]))
  · have hopened : Server.opened cqe = [] := if_neg haccept
    have htable : table (p.completed i cqe) = table p := by
      simp [table, Server.State.completed, hopened]
    rw [htable]
    exact .none

theorem change_step {event : Server.Event} (h : Server.step u p event = some q) :
    Change (table p) (table q) := by
  cases Server.step_sound h with
  | answered hpc hbatch hanswered =>
    have hchange := change_answered hanswered
    exact hchange
  | completed hsqe hpossible => exact change_completed hpossible
  | _ => exact .none

end Changes

/-- Which files are where, and that transfers are made on files in slots only. -/
structure Placed (a : Table) (log : Nat → List (Transfer UInt8)) : Prop where
  issued : Issued a.fds a.files
  slotFiles : ∀ fd f, a.slots fd = some f → f < a.files
  own : ∀ fd fd' f, a.slots fd = some f → a.fds fd' = some f → fd' = fd
  marked : ∀ fd f, a.slots fd = some f → a.marks fd ≠ -1
  used : ∀ f, log f ≠ [] → ∃ fd, a.slots fd = some f

/-- A file without a transfer that no slot holds or will hold. -/
structure Stray (a : Table) (log : Nat → List (Transfer UInt8)) (f : Nat) : Prop where
  unused : log f = []
  slots : ∀ fd, a.slots fd ≠ some f
  marked : ∀ fd, a.fds fd = some f → a.marks fd ≠ -1
  old : f < a.files

section Steps

variable {u : Setup} {a b : Table} {log log' : Nat → List (Transfer UInt8)} {f : Nat}

theorem marked_update {marks : Nat → Int} {fd other : Nat}
    (h : other ≠ fd → marks other ≠ -1) : Function.update marks fd (fd : Int) other ≠ -1 := by
  by_cases heq : other = fd
  · rw [heq, Function.update_self]
    omega
  · rw [Function.update_of_ne heq]
    exact h heq

theorem Placed.register (h : Placed a log) {fd : Nat} (hblank : a.marks fd = -1) :
    Placed { a with
      slots := Function.update a.slots fd (a.fds fd)
      marks := Function.update a.marks fd fd } log := by
  refine ⟨h.issued, ?_, ?_, ?_, ?_⟩
  · intro other f hother
    rcases eq_some_of_update hother with ⟨-, hfile⟩ | ⟨-, hslot⟩
    · exact h.issued.below fd f hfile
    · exact h.slotFiles other f hslot
  · intro other fd' f hother hfd'
    rcases eq_some_of_update hother with ⟨rfl, hfile⟩ | ⟨-, hslot⟩
    · exact h.issued.injective fd' other f hfd' hfile
    · exact h.own other fd' f hslot hfd'
  · intro other f hother
    apply marked_update
    intro hne
    rcases eq_some_of_update hother with ⟨heq, -⟩ | ⟨-, hslot⟩
    · exact absurd heq hne
    · exact h.marked other f hslot
  · intro f hf
    rcases h.used f hf with ⟨other, hother⟩
    have hne : other ≠ fd := by
      rintro rfl
      exact h.marked other f hother hblank
    exact ⟨other, (Function.update_of_ne hne ..).trans hother⟩

theorem Placed.change (h : Placed a log) (hb : Change a b) : Placed b log := by
  cases hb with
  | none => exact h
  | registered fd hblank => exact h.register hblank
  | closed fd =>
    refine ⟨h.issued.remove fd, h.slotFiles, ?_, h.marked, h.used⟩
    exact fun fd fd' f hfd hfd' => h.own fd fd' f hfd (eq_some_of_update_none hfd')
  | opened fd hfree =>
    refine ⟨h.issued.add fd, ?_, ?_, h.marked, h.used⟩
    · exact fun other f hother => Nat.lt_succ_of_lt (h.slotFiles other f hother)
    · intro x y f hx hy
      rcases eq_some_of_update_some hy with hold | ⟨rfl, rfl⟩
      · exact h.own x y f hx hold
      · exact absurd (h.slotFiles x _ hx) (Nat.lt_irrefl _)

theorem Stray.change (h : Stray a log f) (hb : Change a b) : Stray b log f := by
  cases hb with
  | none => exact h
  | registered fd hblank =>
    refine ⟨h.unused, fun other => ?_, fun other hother => ?_, h.old⟩
    · dsimp only
      by_cases heq : other = fd
      · rw [heq, Function.update_self]
        exact fun hfile => h.marked fd hfile hblank
      · rw [Function.update_of_ne heq]
        exact h.slots other
    · exact marked_update fun _ => h.marked other hother
  | closed fd =>
    exact ⟨h.unused, h.slots, fun other hother => h.marked other (eq_some_of_update_none hother),
      h.old⟩
  | opened fd hfree =>
    refine ⟨h.unused, h.slots, fun other hother => ?_, Nat.lt_succ_of_lt h.old⟩
    rcases eq_some_of_update_some hother with hold | ⟨-, rfl⟩
    · exact h.marked other hold
    · exact absurd h.old (Nat.lt_irrefl _)

end Steps

section Runs

variable {u : Setup} {bufs : Nat → List UInt8} {s t : Sys} {event : Event} {f : Nat}

theorem log_step (hfixed : u.registerfiles = true) (hkept : Kept u s)
    (hstep : step u s event = some t) (hslots : ∀ fd, s.server.slots fd ≠ some f) :
    t.log f = s.log f := by
  cases step_sound hstep with
  | served => rfl
  | @completed i cqe data hsqe hdelivers hpossible =>
    have hmem : cqe.entry ∈ s.server.ring.pending :=
      List.mem_append_left _ (List.mem_append_right _ (List.mem_of_getElem? hsqe))
    have htarget : target s.server cqe.entry = s.server.slots cqe.entry.op.fd := by
      rw [target, hkept.fixed _ hmem, if_pos hfixed]
    cases hfile : target s.server cqe.entry with
    | none => simp only [Sys.transfer, hfile]
    | some file =>
      have hne : f ≠ file := by
        rintro rfl
        exact hslots _ (htarget.symm.trans hfile)
      rw [transfer_of_target hfile]
      exact Function.update_of_ne hne ..

theorem change_server (hstep : step u s event = some t) :
    Change (table s.server) (table t.server) := by
  cases step_sound hstep with
  | served hown hnext => exact change_step hnext
  | completed hsqe hdelivers hpossible => exact change_completed hpossible

theorem Placed.step (hfixed : u.registerfiles = true) (hkept : Kept u s)
    (h : Placed (table s.server) s.log) (hstep : step u s event = some t) :
    Placed (table t.server) t.log := by
  have hlog : Placed (table s.server) t.log := by
    refine ⟨h.issued, h.slotFiles, h.own, h.marked, fun f hf => ?_⟩
    by_contra hnone
    rw [not_exists] at hnone
    rw [log_step hfixed hkept hstep hnone] at hf
    exact not_exists.mpr hnone (h.used f hf)
  exact hlog.change (change_server hstep)

theorem Stray.step (hfixed : u.registerfiles = true) (hkept : Kept u s)
    (h : Stray (table s.server) s.log f) (hstep : step u s event = some t) :
    Stray (table t.server) t.log f := by
  have hlog : Stray (table s.server) t.log f :=
    ⟨(log_step hfixed hkept hstep h.slots).trans h.unused, h.slots, h.marked, h.old⟩
  exact hlog.change (change_server hstep)

theorem placed_init (hfixed : u.registerfiles = true) :
    Placed (table (Server.State.init u)) fun _ => [] := by
  have hblank : Placed (table (Server.State.blank u)) fun _ => [] := by
    constructor
    case issued => exact issued_none.add u.sockListenFd
    case used => exact fun _ hlog => absurd rfl hlog
    case own =>
      intro fd fd' f hslot _
      cases hslot
    all_goals
      intro fd f hslot
      cases hslot
  have hlistening : Placed (table (Server.State.listening u)) fun _ => [] := by
    rw [Server.State.listening, if_pos hfixed]
    exact hblank.register rfl
  unfold Server.State.init
  split
  · rename_i p hp
    rcases Server.addAccept_eq_ok hp with ⟨-, -, rfl⟩
    exact hlistening
  · exact hlistening

theorem placed_of_reachable (hfixed : u.registerfiles = true)
    (h : Reachable (step u) (Sys.init u bufs) s) : Placed (table s.server) s.log := by
  apply h.invariant (fun s => Placed (table s.server) s.log) (placed_init hfixed)
  exact fun s event t hreach hs hstep => hs.step hfixed (kept_of_reachable hreach) hstep

/-- With `-f`, a connection that is open under a descriptor whose slot holds another file has
no byte received or sent on it, ever. -/
theorem stray_unserved {fd f other : Nat} (hfixed : u.registerfiles = true)
    (h : Reachable (step u) (Sys.init u bufs) s) (hopen : s.server.fds fd = some f)
    (hslot : s.server.slots fd = some other) (hne : other ≠ f)
    (h' : Reachable (step u) s t) : t.log f = [] := by
  have hplaced := placed_of_reachable hfixed h
  have hslots : ∀ fd', s.server.slots fd' ≠ some f := by
    intro fd' hfd'
    cases hplaced.own fd' fd f hfd' hopen
    exact hne (Option.some.inj (hslot.symm.trans hfd'))
  have hstray : Stray (table s.server) s.log f := by
    refine ⟨?_, hslots, fun fd' hfd' => ?_, hplaced.issued.below fd f hopen⟩
    · by_contra hlog
      rcases hplaced.used f hlog with ⟨fd', hfd'⟩
      exact hslots fd' hfd'
    · rw [hplaced.issued.injective fd' fd f hfd' hopen]
      exact hplaced.marked fd other hslot
  have hend : Stray (table t.server) t.log f := by
    apply h'.invariant (fun t => Stray (table t.server) t.log f) hstray
    intro p event q hreach hp hstep
    exact hp.step hfixed (kept_of_reachable (h.trans hreach)) hstep
  exact hend.unused

end Runs

def comesBack : List Event :=
  oneEcho 2 ++ [.server (.submit 1), .complete 1 0 [], .server .peek, .server (.handle 1),
    .server .endBatch, .server (.submit 0), .complete 0 5 []]

theorem stray_unserved_comes_back : ∃ s t,
    Reachable (step fixedSetup) (Sys.init fixedSetup fun _ => []) s ∧
    s.server.fds 5 = some 2 ∧ s.server.slots 5 = some 1 ∧ Reachable (step fixedSetup) s t ∧
    t.server.closed = [5, 5] ∧ t.log 2 = [] := by
  have hview : (run (step fixedSetup) (Sys.init fixedSetup fun _ => []) comesBack).map
      (fun s => (s.server.fds 5, s.server.slots 5, (run (step fixedSetup) s
        [.server .peek, .server (.handle 1), .server .endBatch, .server (.submit 2),
          .complete 1 0 [], .server .peek, .server (.handle 1)]).map fun t => t.server.closed)) =
      some (some 2, some 1, some [5, 5]) := by decide +kernel
  rcases Reachable.of_view hview with ⟨s, hreach, hseen⟩
  simp only [Prod.mk.injEq] at hseen
  rcases hseen with ⟨hopen, hslot, hafter⟩
  rcases Reachable.of_view hafter with ⟨t, hlater, hclosed⟩
  exact ⟨s, t, hreach, hopen, hslot, hlater, hclosed,
    stray_unserved rfl hreach hopen hslot (by decide) hlater⟩

end IoWrapper.EchoV1.Strays
