import IoWrapper.Core.Machine

/-! Machines that come to a stop by themselves. Where every step uses up some of a finite amount
of work, no run is longer than the work: it ends where no step is left. -/
namespace IoWrapper.Core.Progress
open Core.Machine

variable {σ ε : Type} {step : σ → ε → Option σ} {work : σ → Nat}

def Stuck (step : σ → ε → Option σ) (s : σ) : Prop := ∀ event, step s event = none

def Consumes (work : σ → Nat) (step : σ → ε → Option σ) : Prop :=
  ∀ s event t, step s event = some t → work t < work s

theorem Consumes.length_le (h : Consumes work step) {s t : σ} {events : List ε}
    (hrun : run step s events = some t) : events.length + work t ≤ work s := by
  induction events generalizing s with
  | nil =>
    cases hrun
    exact Nat.le_of_eq (Nat.zero_add _)
  | cons event events ih =>
    rw [run_cons] at hrun
    rcases Option.bind_eq_some_iff.mp hrun with ⟨next, hstep, hrest⟩
    have hless := h s event next hstep
    have hlater := ih hrest
    rw [List.length_cons]
    omega

end IoWrapper.Core.Progress
