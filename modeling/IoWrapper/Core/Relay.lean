import IoWrapper.Core.Machine

/-! What an echo is for, one connection at a time. A relay takes a chunk in and gives a part
from its front back before it takes the next one; a log of transfers is right if the relay
can make it. If every part is the whole chunk, then no byte is lost. A feed may give back
several parts of a chunk, each from where the last one has ended. -/
namespace IoWrapper.Core.Relay
open Core.Machine

variable {α : Type}

inductive Transfer (α : Type) where
  | took (chunk : List α)
  | gave (part : List α)
deriving DecidableEq

/-- The relay holds the chunk that it has not answered yet. -/
def relay [DecidableEq α] (held : Option (List α)) : Transfer α → Option (Option (List α))
  | .took chunk => if held = none then some (some chunk) else none
  | .gave part => held.bind fun chunk => if part <+: chunk then some none else none

def Transfer.taken : Transfer α → List α
  | .took chunk => chunk
  | .gave _ => []

def Transfer.given : Transfer α → List α
  | .took _ => []
  | .gave part => part

def taken (log : List (Transfer α)) : List α := log.flatMap Transfer.taken

def given (log : List (Transfer α)) : List α := log.flatMap Transfer.given

section Totals

variable (log : List (Transfer α)) (chunk : List α)

@[simp] theorem taken_took : taken (log ++ [.took chunk]) = taken log ++ chunk := by
  simp [taken, Transfer.taken]

@[simp] theorem taken_gave : taken (log ++ [.gave chunk]) = taken log := by
  simp [taken, Transfer.taken]

@[simp] theorem given_took : given (log ++ [.took chunk]) = given log := by
  simp [given, Transfer.given]

@[simp] theorem given_gave : given (log ++ [.gave chunk]) = given log ++ chunk := by
  simp [given, Transfer.given]

end Totals

section Logs

variable [DecidableEq α] {log : List (Transfer α)} {held : Option (List α)}

/-- The relay can make the transfers, and holds the chunk then. -/
def Makes (log : List (Transfer α)) (held : Option (List α)) : Prop :=
  run relay none log = some held

theorem makes_nil : Makes ([] : List (Transfer α)) none := rfl

theorem Makes.unique {held' : Option (List α)} (h : Makes log held) (h' : Makes log held') :
    held' = held :=
  Option.some.inj (h'.symm.trans h)

theorem Makes.took (h : Makes log none) (chunk : List α) :
    Makes (log ++ [.took chunk]) (some chunk) := by
  unfold Makes at h ⊢
  rw [run_append, h]
  rfl

theorem Makes.gave {chunk part : List α} (h : Makes log (some chunk)) (hpart : part <+: chunk) :
    Makes (log ++ [.gave part]) none := by
  unfold Makes at h ⊢
  rw [run_append, h, Option.bind_some, run_cons]
  simp [relay, hpart]

theorem makes_took {chunk : List α} (h : Makes (log ++ [.took chunk]) held) :
    Makes log none ∧ held = some chunk := by
  rcases run_concat h with ⟨before, hlog, hlast⟩
  simp only [relay, Option.ite_none_right_eq_some, Option.some.injEq] at hlast
  rcases hlast with ⟨rfl, rfl⟩
  exact ⟨hlog, rfl⟩

theorem makes_gave {part : List α} (h : Makes (log ++ [.gave part]) held) :
    ∃ chunk, Makes log (some chunk) ∧ part <+: chunk ∧ held = none := by
  rcases run_concat h with ⟨before, hlog, hlast⟩
  rcases Option.bind_eq_some_iff.mp hlast with ⟨chunk, rfl, hgave⟩
  rw [Option.ite_none_right_eq_some, Option.some.injEq] at hgave
  exact ⟨chunk, hlog, hgave.1, hgave.2.symm⟩

/-- No byte of the log is lost: what has been given back and what is held are all that was
taken in. -/
def Lossless (log : List (Transfer α)) : Prop :=
  ∀ held, Makes log held → given log ++ held.getD [] = taken log

theorem lossless_nil : Lossless ([] : List (Transfer α)) := by
  intro held hmakes
  cases makes_nil.unique hmakes
  rfl

theorem Lossless.took (h : Lossless log) (chunk : List α) : Lossless (log ++ [.took chunk]) := by
  intro held hmakes
  rcases makes_took hmakes with ⟨hlog, rfl⟩
  have hbefore := h none hlog
  rw [Option.getD_none, List.append_nil] at hbefore
  rw [given_took, taken_took, hbefore, Option.getD_some]

theorem Lossless.gave {chunk : List α} (h : Lossless log) (hheld : Makes log (some chunk)) :
    Lossless (log ++ [.gave chunk]) := by
  intro held hmakes
  rcases makes_gave hmakes with ⟨-, -, -, rfl⟩
  rw [given_gave, taken_gave, Option.getD_none, List.append_nil]
  exact h (some chunk) hheld

theorem Lossless.given_eq (h : Lossless log) (hmakes : Makes log none) :
    given log = taken log := by
  have hall := h none hmakes
  rw [Option.getD_none, List.append_nil] at hall
  exact hall

end Logs

section Feeds

variable [DecidableEq α] {log : List (Transfer α)} {held chunk : List α}

/-- The feed holds what is left of its chunk, and forgets it when it takes the next one. -/
def feed (held : List α) : Transfer α → Option (List α)
  | .took chunk => some chunk
  | .gave part => if part <+: held then some (held.drop part.length) else none

def Feeds (log : List (Transfer α)) (held : List α) : Prop := run feed [] log = some held

theorem feeds_nil : Feeds ([] : List (Transfer α)) [] := rfl

theorem Feeds.took (h : Feeds log held) (chunk : List α) :
    Feeds (log ++ [.took chunk]) chunk := by
  unfold Feeds at h ⊢
  rw [run_append, h]
  rfl

theorem Feeds.gave {part : List α} (h : Feeds log held) (hpart : part <+: held) :
    Feeds (log ++ [.gave part]) (held.drop part.length) := by
  unfold Feeds at h ⊢
  rw [run_append, h, Option.bind_some, run_cons]
  simp [feed, hpart]

theorem Feeds.gave_take (h : Feeds log held) (hchunk : chunk <+: held) (count : Nat) :
    ∃ left, Feeds (log ++ [.gave (chunk.take count)]) left ∧ chunk.drop count <+: left := by
  refine ⟨_, h.gave ((List.take_prefix count chunk).trans hchunk), ?_⟩
  rcases Nat.le_total count chunk.length with hle | hge
  · rw [List.length_take_of_le hle]
    rcases hchunk with ⟨more, rfl⟩
    rw [List.drop_append_of_le_length hle]
    exact List.prefix_append _ _
  · rw [List.drop_eq_nil_of_le hge]
    exact List.nil_prefix

theorem Feeds.sublist (h : Feeds log held) : (given log ++ held).Sublist (taken log) := by
  induction log using List.reverseRecOn generalizing held with
  | nil =>
    cases h
    exact List.Sublist.refl []
  | append_singleton log last ih =>
    rcases run_concat h with ⟨before, hlog, hlast⟩
    have hbefore := ih hlog
    cases last with
    | took chunk =>
      cases hlast
      rw [given_took, taken_took]
      exact ((List.sublist_append_left _ _).trans hbefore).append (List.Sublist.refl held)
    | gave part =>
      rcases Option.ite_none_right_eq_some.mp hlast with ⟨hpart, hheld⟩
      cases hheld
      rw [given_gave, taken_gave, List.append_assoc]
      rw [← List.prefix_iff_eq_append.mp hpart] at hbefore
      exact hbefore

end Feeds

/-- A way to keep account of what is due after the transfers of a log: a chunk that is taken in
when nothing is due becomes due, and what is given off its front is due no more. -/
structure Ledger (due : List (Transfer α) → List α → Prop) : Prop where
  start : due [] []
  took : ∀ {log}, due log [] → ∀ chunk, due (log ++ [.took chunk]) chunk
  gave : ∀ {log chunk}, due log chunk → ∀ count,
    due (log ++ [.gave (chunk.take count)]) (chunk.drop count)

theorem ledger_feeds [DecidableEq α] :
    Ledger fun (log : List (Transfer α)) chunk => ∃ held, Feeds log held ∧ chunk <+: held := by
  constructor
  case start => exact ⟨[], feeds_nil, List.nil_prefix⟩
  case took =>
    rintro log ⟨held, hfeeds, -⟩ chunk
    exact ⟨chunk, hfeeds.took chunk, List.prefix_rfl⟩
  case gave =>
    rintro log chunk ⟨held, hfeeds, hchunk⟩ count
    exact hfeeds.gave_take hchunk count

theorem ledger_totals : Ledger fun (log : List (Transfer α)) chunk =>
    given log ++ chunk = taken log := by
  constructor
  case start => rfl
  case took =>
    intro log hdue chunk
    rw [List.append_nil] at hdue
    rw [given_took, taken_took, hdue]
  case gave =>
    intro log chunk hdue count
    rw [given_gave, taken_gave, List.append_assoc, List.take_append_drop, hdue]

end IoWrapper.Core.Relay
