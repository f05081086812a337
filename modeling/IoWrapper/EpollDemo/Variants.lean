import IoWrapper.EpollDemo.Server

/-! The two programs side by side. One waits for each `recvmsg` and `sendmsg`, the other puts
them into a ring and waits for the completion. -/
namespace IoWrapper.EpollDemo.Variants
open Core.Machine Core.Calls Server

def epipe : Int := 32

/-- What a program can have for an answer that makes its calls itself: `sendmsg` blocks until all
is sent or it fails; and where the other side is gone it does not return, for `SIGPIPE` ends the
program. Through the ring a send can be short, and fail with `EPIPE`. -/
def blocking : Call → Reply → Bool
  | .sendmsg _ bytes, .ret res => (res < 0 || res = bytes.length) && res != -epipe
  | _, _ => true

/-- The loop that makes its calls itself, as long as no signal ends it. -/
def plainStep (sockfd : Nat) : World × State → Event → Option (World × State) :=
  direct (plain sockfd) ((kernel sockfd).only blocking)

/-- The loop with the ring, as long as `io_uring_wait_cqe` does not fail. A failure is not
handled: the loop would go on with a completion that is not there. -/
def ringStep (sockfd : Nat) : Ringed Call Reply State World → RingAct Reply Unit →
    Option (Ringed Call Reply State World) :=
  restrict Patient (ringed (iouring sockfd) (kernel sockfd) viaRing fun _ => none)

/-- The same, as long as the ring gives the answers that a blocking call can have. -/
def alikeStep (sockfd : Nat) : Ringed Call Reply State World → RingAct Reply Unit →
    Option (Ringed Call Reply State World) :=
  restrict (Within (iouring sockfd) blocking) (ringStep sockfd)

section Replies

variable {sockfd : Nat} {s : State}

theorem resume_libc (h : s.call.any viaRing = true) (reply : Reply) :
    s.resume sockfd (libc reply) = s.resume sockfd reply := by
  cases hpc : s.pc with
  | receiving fd rest =>
    cases reply with
    | received res bytes =>
      have hsign : (if res < 0 then -1 else res) ≤ 0 ↔ res ≤ 0 := by split <;> omega
      simp only [libc, State.resume, hpc, hsign]
      by_cases hres : res ≤ 0
      · rw [if_pos hres, if_pos hres]
      · rw [if_neg hres, if_neg hres, if_neg (by omega)]
    | reports | ret => simp only [libc, State.resume, hpc]
  | sending fd len rest =>
    cases reply with
    | ret res =>
      have hsign : (if res < 0 then -1 else res) < 0 ↔ res < 0 := by split <;> omega
      simp only [libc, State.resume, hpc, hsign]
    | reports | received => simp only [libc, State.resume, hpc]
  | waiting | accepting | adding | removing | shuttingDown | closing | exited =>
    simp [State.call, hpc, viaRing] at h

theorem iouring_eq_plain : iouring sockfd = plain sockfd := by
  unfold iouring plain
  congr 1
  funext s reply
  split
  · rename_i hvia
    exact (resume_libc hvia reply).symm
  · rfl

end Replies

theorem alikeStep_eq (sockfd : Nat) :
    alikeStep sockfd = restrict Patient
      (ringed (plain sockfd) ((kernel sockfd).only blocking) viaRing fun _ => none) := by
  unfold alikeStep ringStep
  rw [restrict_comm, restrict_within, iouring_eq_plain]

/-- As long as no wait fails, the loop with the ring has one entry under way at most. Where the
ring answers as a blocking call does, the loop comes to the same as the other one between two
calls, and within a call the kernel has seen nothing else. -/
theorem iouring_agrees (sockfd : Nat) :
    (∀ w s, Reachable (alikeStep sockfd) (idle World.init State.init) (idle w s) ↔
      Reachable (plainStep sockfd) (World.init, State.init) (w, s)) ∧
    (∀ r, Reachable (alikeStep sockfd) (idle World.init State.init) r →
      ∃ s, Reachable (plainStep sockfd) (World.init, State.init) (r.kernel, s)) ∧
    ∀ r, Reachable (ringStep sockfd) (idle World.init State.init) r →
      r.sq.length + r.inflight.length + r.cq.length ≤ 1 := by
  refine ⟨fun w s => ?_, fun r h => ?_, fun r h => (lone_of_reachable h).1.length_le_one⟩
  · rw [alikeStep_eq]
    exact ringed_iff_direct
  · rw [alikeStep_eq] at h
    exact ⟨_, (lone_of_reachable h).2⟩

end IoWrapper.EpollDemo.Variants
