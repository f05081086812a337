import IoWrapper.Core.Calls
import IoWrapper.Core.Pool

/-! What failed waits leave behind. A process that goes on after one does not know that its
entry is still in the ring, and takes whatever completes next for the answer to its next call.
No entry is lost and none is answered twice, so the ring is behind by as many calls as waits
have failed, for ever. -/
namespace IoWrapper.Core.Leftovers
open Core.Machine Core.Calls Core.Pool

variable {κ ρ σ ω δ : Type}

def contents (s : Ringed κ ρ σ ω) : List κ := s.cq.map Prod.fst ++ s.inflight ++ s.sq

inductive Note (κ : Type) where
  | made (c : κ)
  | completed (i : Nat)
  | answered (c : κ)
  | gaveUp
deriving DecidableEq

def note (P : Process κ ρ σ) (s : Ringed κ ρ σ ω) : RingAct ρ δ → List (Note κ)
  | .queue => (P.call s.process).toList.map .made
  | .complete i _ => [.completed i]
  | .reap => s.cq.head?.toList.map fun answer => .answered answer.1
  | .waitFails => [.gaveUp]
  | .call _ | .submit _ | .outside _ => []

def Note.call : Note κ → Option κ
  | .made c => some c
  | .completed _ | .answered _ | .gaveUp => none

def Note.taken : Note κ → Option κ
  | .answered c => some c
  | .made _ | .completed _ | .gaveUp => none

def Note.isGaveUp : Note κ → Bool
  | .gaveUp => true
  | .made _ | .completed _ | .answered _ => false

def made (notes : List (Note κ)) : List κ := notes.filterMap Note.call

def answered (notes : List (Note κ)) : List κ := notes.filterMap Note.taken

def gaveUps (notes : List (Note κ)) : Nat := notes.countP Note.isGaveUp

/-- The entries have completed in the order in which they were submitted. -/
def InOrder (notes : List (Note κ)) : Prop := ∀ i, .completed i ∈ notes → i = 0

def underway : Phase → Nat
  | .queued | .waiting => 1
  | .ready | .crashed => 0

structure Accounted (P : Process κ ρ σ) (s : Ringed κ ρ σ ω) (notes : List (Note κ)) : Prop where
  once : (made notes).Perm (answered notes ++ contents s)
  left : (contents s).length = gaveUps notes + underway s.phase
  order : InOrder notes → made notes = answered notes ++ contents s
  last : underway s.phase = 1 → (made notes).getLast? = P.call s.process

section Steps

variable {P : Process κ ρ σ} {K : Kernel κ ρ ω δ} {via : κ → Bool} {failed : σ → Option σ}
  {s t : Ringed κ ρ σ ω} {notes : List (Note κ)}

theorem InOrder.front {more : List (Note κ)} (h : InOrder (notes ++ more)) : InOrder notes :=
  fun i hi => h i (List.mem_append_left _ hi)

theorem Accounted.same (h : Accounted P s notes) (hcontents : contents t = contents s)
    (hphase : underway t.phase = underway s.phase)
    (hprocess : underway t.phase = 1 → t.process = s.process) : Accounted P t notes := by
  refine ⟨?_, ?_, ?_, ?_⟩
  · rw [hcontents]
    exact h.once
  · rw [hcontents, hphase]
    exact h.left
  · rw [hcontents]
    exact h.order
  · intro hunder
    rw [hprocess hunder]
    exact h.last (hphase ▸ hunder)

theorem Accounted.shift {n : Note κ} (h : Accounted P s notes) (hmade : n.call = none)
    (hanswered : n.taken = none) (hperm : (contents s).Perm (contents t))
    (hleft : gaveUps [n] + underway t.phase = underway s.phase)
    (horder : InOrder [n] → contents t = contents s)
    (hprocess : underway t.phase = 1 → s.phase = t.phase ∧ t.process = s.process) :
    Accounted P t (notes ++ [n]) := by
  have hmades : made (notes ++ [n]) = made notes := by
    simp [made, hmade]
  have hanswers : answered (notes ++ [n]) = answered notes := by
    simp [answered, hanswered]
  refine ⟨?_, ?_, ?_, ?_⟩
  · rw [hmades, hanswers]
    exact h.once.trans (hperm.append_left _)
  · have hcount : gaveUps (notes ++ [n]) = gaveUps notes + gaveUps [n] := List.countP_append
    rw [← hperm.length_eq, h.left, hcount]
    omega
  · intro hall
    rw [hmades, hanswers, horder fun i hi => hall i (List.mem_append_right _ hi)]
    exact h.order hall.front
  · intro hunder
    rcases hprocess hunder with ⟨hphase, hsame⟩
    rw [hmades, hsame]
    exact h.last (hphase ▸ hunder)

theorem contents_complete {i : Nat} {c : κ} {r : ρ} {w : ω} (h : s.inflight[i]? = some c) :
    (contents s).Perm (contents { s with
      kernel := w
      inflight := s.inflight.eraseIdx i
      cq := s.cq ++ [(c, r)] }) := by
  simp only [contents, List.map_append, List.map_cons, List.map_nil, List.append_assoc,
    List.singleton_append]
  exact ((perm_eraseIdx h).append_right s.sq).append_left _

theorem contents_complete_head {c : κ} {r : ρ} {w : ω} (h : s.inflight[0]? = some c) :
    contents { s with
      kernel := w
      inflight := s.inflight.eraseIdx 0
      cq := s.cq ++ [(c, r)] } = contents s := by
  rcases List.head?_eq_some_iff.mp (List.head?_eq_getElem? ▸ h) with ⟨rest, hrest⟩
  simp [contents, hrest]

theorem Accounted.queue {c : κ} (h : Accounted P s notes) (hphase : s.phase = .ready)
    (hcall : P.call s.process = some c) :
    Accounted P { s with sq := s.sq ++ [c], phase := .queued } (notes ++ [.made c]) := by
  have hmade : made (notes ++ [.made c]) = made notes ++ [c] := by
    simp [made, Note.call]
  have hanswered : answered (notes ++ [.made c]) = answered notes := by
    simp [answered, Note.taken]
  have hcontents : contents { s with sq := s.sq ++ [c], phase := .queued } =
      contents s ++ [c] := by
    simp [contents]
  refine ⟨?_, ?_, ?_, ?_⟩
  · rw [hmade, hanswered, hcontents, ← List.append_assoc]
    exact h.once.append_right _
  · have hleft := h.left
    have hcount : gaveUps (notes ++ [.made c]) = gaveUps notes := by
      simp [gaveUps, Note.isGaveUp]
    rw [hphase] at hleft
    rw [hcontents, List.length_append, hleft, hcount]
    rfl
  · intro horder
    rw [hmade, hanswered, hcontents, h.order horder.front, List.append_assoc]
  · intro _
    rw [hmade, List.getLast?_concat, hcall]

theorem Accounted.reap {c : κ} {r : ρ} {rest : List (κ × ρ)} {p : σ} (h : Accounted P s notes)
    (hphase : s.phase = .waiting) (hcq : s.cq = (c, r) :: rest) :
    Accounted P { s with process := p, cq := rest, phase := .ready }
      (notes ++ [.answered c]) := by
  have hmade : made (notes ++ [.answered c]) = made notes := by
    simp [made, Note.call]
  have hanswered : answered (notes ++ [.answered c]) = answered notes ++ [c] := by
    simp [answered, Note.taken]
  have hcontents : contents s =
      c :: contents { s with process := p, cq := rest, phase := .ready } := by
    simp [contents, hcq]
  have hmove : answered notes ++ contents s = (answered notes ++ [c]) ++
      contents { s with process := p, cq := rest, phase := .ready } := by
    rw [hcontents, List.append_assoc, List.singleton_append]
  refine ⟨?_, ?_, ?_, fun hunder => absurd hunder Nat.zero_ne_one⟩
  · rw [hmade, hanswered, ← hmove]
    exact h.once
  · have hleft := h.left
    have hcount : gaveUps (notes ++ [.answered c]) = gaveUps notes := by
      simp [gaveUps, Note.isGaveUp]
    rw [hcontents, hphase, List.length_cons] at hleft
    rw [hcount]
    exact Nat.succ.inj hleft
  · intro horder
    rw [hmade, hanswered, ← hmove]
    exact h.order horder.front

theorem Accounted.step {act : RingAct ρ δ} (h : Accounted P s notes)
    (hstep : ringed P K via failed s act = some t) : Accounted P t (notes ++ note P s act) := by
  cases ringed_sound hstep with
  | called hphase =>
    rw [note, List.append_nil]
    refine h.same rfl rfl fun hunder => ?_
    dsimp only at hunder
    rw [hphase] at hunder
    cases hunder
  | outside =>
    rw [note, List.append_nil]
    exact h.same rfl rfl fun _ => rfl
  | @queued c hphase hcall hvia =>
    rw [note, hcall]
    exact h.queue hphase hcall
  | @submitted count hphase =>
    rw [note, List.append_nil]
    exact h.same (by simp [contents]) (by rw [hphase]; rfl) fun _ => rfl
  | @completed i c r w hcall hanswer =>
    refine h.shift rfl rfl (contents_complete hcall) (Nat.zero_add _) (fun horder => ?_)
      fun _ => ⟨rfl, rfl⟩
    have hi : i = 0 := horder i (List.mem_cons_self ..)
    subst hi
    exact contents_complete_head hcall
  | reaped hphase hcq =>
    rw [note, hcq]
    exact h.reap hphase hcq
  | wentOn hphase | crashed hphase =>
    exact h.shift rfl rfl (List.Perm.refl _) (by rw [hphase]; rfl) (fun _ => rfl)
      fun hunder => absurd hunder Nat.zero_ne_one

theorem accounted_of_reachable {w : ω} {p : σ} {s : Ringed κ ρ σ ω × List (Note κ)}
    (h : Reachable (record (note P) (ringed P K via failed)) (idle w p, []) s) :
    Accounted P s.1 s.2 := by
  apply h.invariant fun s => Accounted P s.1 s.2
  · exact ⟨List.Perm.refl _, rfl, fun _ => rfl, fun hunder => absurd hunder Nat.zero_ne_one⟩
  · intro s act t _ hs hstep
    rcases record_eq_some.mp hstep with ⟨hnext, hnotes⟩
    rw [hnotes]
    exact hs.step hnext

/-- The answer that is there to be taken is that to the call which was made as many calls before
the one under way as waits have failed. -/
theorem Accounted.lag {c : κ} {r : ρ} {rest : List (κ × ρ)} (h : Accounted P s notes)
    (hphase : s.phase = .waiting) (hcq : s.cq = (c, r) :: rest) (horder : InOrder notes) :
    (made notes)[(made notes).length - 1 - gaveUps notes]? = some c ∧
      (made notes)[(made notes).length - 1]? = P.call s.process := by
  have hlast := h.last (by rw [hphase]; rfl)
  have hleft := h.left
  have hmade := h.order horder
  rw [hphase] at hleft
  have hindex : (made notes).length - 1 - gaveUps notes = (answered notes).length := by
    rw [hmade, List.length_append, hleft]
    simp only [underway]
    omega
  constructor
  · rw [hindex, hmade, List.getElem?_append_right (Nat.le_refl _), Nat.sub_self]
    simp [contents, hcq]
  · rw [← List.getLast?_eq_getElem?]
    exact hlast

end Steps

end IoWrapper.Core.Leftovers
