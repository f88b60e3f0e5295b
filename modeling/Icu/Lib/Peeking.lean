import Icu.Lib.Transducer

/-! # Transducers that refuse symbols

A transducer may stop before a symbol or behind it, and its last state says why. Calls that
cut the input into buffers keep the output, the place where it stops and the last state.
-/

namespace Icu.Lib.Peeking

open Transducer

variable {σ κ α β : Type}

/-- Go on, or stop behind the symbol, or stop before it. -/
inductive Move (σ β : Type)
  | go (s : σ) (out : List β)
  | reject (s : σ)
  | refuse (s : σ)
  deriving DecidableEq

/-- All output, the last state, and the unread input of a transducer that has stopped. -/
structure Outcome (σ α β : Type) where
  output : List β
  state : σ
  stopped : Option (List α)
  deriving DecidableEq

def Outcome.after (out : List β) (r : Outcome σ α β) : Outcome σ α β :=
  { r with output := out ++ r.output }

@[simp] theorem Outcome.after_nil (r : Outcome σ α β) : r.after [] = r := rfl

@[simp] theorem Outcome.after_after (out out' : List β) (r : Outcome σ α β) :
    (r.after out').after out = r.after (out ++ out') := by
  simp [Outcome.after]

section Run

variable (move : σ → α → Move σ β)

def run : σ → List α → Outcome σ α β
  | s, [] => ⟨[], s, none⟩
  | s, a :: as =>
    match move s a with
    | .go s' out => (run s' as).after out
    | .reject s' => ⟨[], s', some as⟩
    | .refuse s' => ⟨[], s', some (a :: as)⟩

def resume (a : α) (as : List α) : Move σ β → Outcome σ α β
  | .go s out => (run move s as).after out
  | .reject s => ⟨[], s, some as⟩
  | .refuse s => ⟨[], s, some (a :: as)⟩

end Run

variable {move : σ → α → Move σ β} {s : σ} {a : α} {as : List α} {out : List β}

@[simp] theorem run_nil : run move s [] = ⟨[], s, none⟩ := rfl

theorem run_cons : run move s (a :: as) = resume move a as (move s a) := by
  rw [run]
  cases move s a <;> rfl

def Move.flatMap {γ : Type} (f : β → List γ) : Move σ β → Move σ γ
  | .go s out => .go s (out.flatMap f)
  | .reject s => .reject s
  | .refuse s => .refuse s

theorem run_flatMap {γ : Type} {f : β → List γ} {move' : σ → α → Move σ γ}
    (h : ∀ s a, move' s a = (move s a).flatMap f) (as : List α) (s : σ) :
    run move' s as = ⟨(run move s as).output.flatMap f, (run move s as).state,
      (run move s as).stopped⟩ := by
  induction as generalizing s with
  | nil => rfl
  | cons a as ih =>
    rw [run_cons, run_cons, h]
    cases move s a with
    | go s' out =>
      rw [Move.flatMap, resume, ih, resume]
      simp [Outcome.after]
    | reject s' => rfl
    | refuse s' => rfl

theorem run_length_le {k : Nat} (h : ∀ s a s' out, move s a = .go s' out → out.length ≤ k) :
    ∀ (as : List α) (s : σ), (run move s as).output.length ≤ k * as.length
  | [], _ => by simp
  | a :: as, s => by
    rw [run_cons]
    cases hm : move s a with
    | go s' out =>
      have ih := run_length_le h as s'
      have hout := h _ _ _ _ hm
      rw [resume, Outcome.after, List.length_append, List.length_cons, Nat.mul_add_one]
      omega
    | reject s' => exact Nat.zero_le _
    | refuse s' => exact Nat.zero_le _

/-- With any further input, the whole outcome is the output so far and then that of a state
and the input that it has not read. -/
def Follows (move : σ → α → Move σ β) (whole : List α → Outcome σ α β) (out : List β) (s : σ)
    (rest : List α) : Prop :=
  ∀ more, whole more = (run move s (rest ++ more)).after out

def Stops (whole : List α → Outcome σ α β) (out : List β) (s : σ) (rest : List α) : Prop :=
  ∀ more, whole more = ⟨out, s, some (rest ++ more)⟩

def Pauses (move : σ → α → Move σ β) (whole : List α → Outcome σ α β) (out : List β) (a : α)
    (rest : List α) (m : Move σ β) : Prop :=
  ∀ more, whole more = (resume move a (rest ++ more) m).after out

section Follows

variable {whole : List α → Outcome σ α β} {s' : σ} {out' : List β}

theorem Follows.pauses (h : Follows move whole out s (a :: as)) :
    Pauses move whole out a as (move s a) := by
  intro more
  rw [h more, List.cons_append, run_cons]

theorem Pauses.go (h : Pauses move whole out a as (.go s' out')) :
    Follows move whole (out ++ out') s' as := by
  intro more
  rw [h more, resume, Outcome.after_after]

theorem Pauses.reject (h : Pauses move whole out a as (.reject s')) : Stops whole out s' as := by
  intro more
  rw [h more, resume, Outcome.after, List.append_nil]

theorem Pauses.refuse (h : Pauses move whole out a as (.refuse s')) :
    Stops whole out s' (a :: as) := by
  intro more
  rw [h more, resume, Outcome.after, List.append_nil, List.cons_append]

theorem Follows.go (h : Follows move whole out s (a :: as))
    (hm : move s a = .go s' out') : Follows move whole (out ++ out') s' as := by
  have hp := h.pauses
  rw [hm] at hp
  exact hp.go

theorem Follows.refuse (h : Follows move whole out s (a :: as))
    (hm : move s a = .refuse s') : Stops whole out s' (a :: as) := by
  have hp := h.pauses
  rw [hm] at hp
  exact hp.refuse

/-- The output so far is not longer than that of the input that was read. -/
theorem Follows.length_le {source rest : List α} {s' : σ} {k : Nat}
    (h : Follows move (fun more => run move s (source ++ more)) out s' rest)
    (hk : ∀ s a s' out, move s a = .go s' out → out.length ≤ k) :
    out.length ≤ k * source.length := by
  have hwhole := h []
  have hle := run_length_le hk source s
  simp only [List.append_nil] at hwhole
  rw [hwhole, Outcome.after, List.length_append] at hle
  omega

end Follows

/-- What a call must keep. A state between two calls is `valid`, and one that stops is `stuck`. -/
structure Keeps (move : σ → α → Move σ β) (rep : κ → σ) (valid stuck : κ → Prop) (state : κ)
    (source : List α) (reply : Reply κ α β) : Prop where
  proceeds : reply.failed = false → valid reply.state ∧
    Follows move (fun more => run move (rep state) (source ++ more)) reply.output
      (rep reply.state) reply.rest
  fails : reply.failed = true → stuck reply.state ∧
    Stops (fun more => run move (rep state) (source ++ more)) reply.output (rep reply.state)
      reply.rest

structure OnTrack (move : σ → α → Move σ β) (rep : κ → σ) (valid stuck : κ → Prop)
    (whole : Outcome σ α β) (now : Progress κ α β) : Prop where
  proceeds : now.failed = false →
    valid now.state ∧ whole = (run move (rep now.state) now.remaining).after now.output
  fails : now.failed = true → stuck now.state ∧ whole = ⟨now.output, rep now.state,
    some now.remaining⟩

section Calls

variable {call : κ → List α → Nat → Reply κ α β} {rep : κ → σ} {valid stuck : κ → Prop}
  {now : Progress κ α β}

theorem OnTrack.start {state : κ} {input : List α} (hv : valid state) :
    OnTrack move rep valid stuck (run move (rep state) input) ⟨state, input, [], false⟩ :=
  ⟨fun _ => ⟨hv, rfl⟩, fun hfail => absurd hfail Bool.false_ne_true⟩

theorem OnTrack.serve {whole : Outcome σ α β} {request : Nat × Nat}
    (h : OnTrack move rep valid stuck whole now)
    (hcall : now.failed = false → Keeps move rep valid stuck now.state
      (now.remaining.take request.1)
      (call now.state (now.remaining.take request.1) request.2)) :
    OnTrack move rep valid stuck whole (Transducer.serve call now request) := by
  cases hf : now.failed with
  | true => rwa [Transducer.serve, if_pos hf]
  | false =>
    obtain ⟨-, hwhole⟩ := h.proceeds hf
    have hkeeps := hcall hf
    rw [Transducer.serve, if_neg (by simp [hf])]
    constructor
    · intro hok
      obtain ⟨hv, heq⟩ := hkeeps.proceeds hok
      have hnow := heq (now.remaining.drop request.1)
      simp only [List.take_append_drop] at hnow
      refine ⟨hv, ?_⟩
      rw [hwhole, hnow, Outcome.after_after]
    intro hfail
    obtain ⟨hstuck, hstop⟩ := hkeeps.fails hfail
    have hnow := hstop (now.remaining.drop request.1)
    simp only [List.take_append_drop] at hnow
    refine ⟨hstuck, ?_⟩
    rw [hwhole, hnow]
    rfl

theorem OnTrack.serveCalls {admits : κ → List α → Nat → Prop}
    (hcall : ∀ state source capacity, valid state → admits state source capacity →
      Keeps move rep valid stuck state source (call state source capacity))
    {whole : Outcome σ α β} {requests : List (Nat × Nat)}
    (h : OnTrack move rep valid stuck whole now) (hadm : AdmitsCalls call admits now requests) :
    OnTrack move rep valid stuck whole (requests.foldl (Transducer.serve call) now) := by
  induction requests generalizing now with
  | nil => exact h
  | cons request requests ih =>
    obtain ⟨hfirst, hlater⟩ := hadm
    rw [List.foldl_cons]
    exact ih (h.serve fun hf => hcall _ _ _ (h.proceeds hf).1 (hfirst hf)) hlater

theorem Keeps.outcome {state : κ} {source : List α} {reply : Reply κ α β}
    (h : Keeps move rep valid stuck state source reply)
    (hall : reply.failed = false → reply.rest = []) : run move (rep state) source =
      ⟨reply.output, rep reply.state, if reply.failed then some reply.rest else none⟩ := by
  cases hf : reply.failed with
  | true =>
    have hstop := (h.fails hf).2 []
    simp only [List.append_nil] at hstop
    exact hstop
  | false =>
    have hgo := (h.proceeds hf).2 []
    simp only [List.append_nil, hall hf, run_nil, Outcome.after] at hgo
    exact hgo

/-- The run of calls is at a place of the single call: at its stop, or before it, and if
nothing is left to read, at its end. -/
structure Agrees (rep : κ → σ) (single : Reply κ α β) (now : Progress κ α β) : Prop where
  stopped : now.failed = true → single.failed = true ∧ single.output = now.output ∧
    single.rest = now.remaining ∧ rep single.state = rep now.state
  before : now.failed = false → now.output <+: single.output
  ended : now.failed = false → now.remaining = [] → single.failed = false ∧
    single.output = now.output ∧ rep single.state = rep now.state

theorem OnTrack.agrees {whole : Outcome σ α β} {single : Reply κ α β}
    (h : OnTrack move rep valid stuck whole now) (hsingle : whole =
      ⟨single.output, rep single.state, if single.failed then some single.rest else none⟩) :
    Agrees rep single now := by
  refine ⟨fun hfail => ?_, fun hok => ?_, fun hok hnil => ?_⟩
  · obtain ⟨-, hnow⟩ := h.fails hfail
    rw [hsingle, Outcome.mk.injEq] at hnow
    obtain ⟨hout, hstate, hrest⟩ := hnow
    cases hf : single.failed with
    | true =>
      rw [hf, if_pos rfl, Option.some.injEq] at hrest
      exact ⟨rfl, hout, hrest, hstate⟩
    | false =>
      rw [hf, if_neg Bool.false_ne_true] at hrest
      cases hrest
  · obtain ⟨-, hnow⟩ := h.proceeds hok
    rw [hsingle, Outcome.after, Outcome.mk.injEq] at hnow
    exact ⟨_, hnow.1.symm⟩
  · obtain ⟨-, hnow⟩ := h.proceeds hok
    rw [hsingle, hnil, run_nil, Outcome.after, List.append_nil, Outcome.mk.injEq] at hnow
    obtain ⟨hout, hstate, hrest⟩ := hnow
    cases hf : single.failed with
    | true =>
      rw [hf, if_pos rfl] at hrest
      cases hrest
    | false => exact ⟨rfl, hout, hstate⟩

end Calls

end Icu.Lib.Peeking
