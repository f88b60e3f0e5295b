import Mathlib.Data.List.Basic

/-! # Transducers that are called in pieces

A transducer reads one symbol at a time and writes any number of symbols. A converter
serves such a transducer in calls: each call gets a buffer with a part of the input and
room for a part of the output, and it reads as much as it can. If each call leaves the rest
of the output unchanged, then the output does not depend on how the calls cut the input.
-/

namespace Icu.Lib.Transducer

variable {σ κ α β : Type} {requests : List (Nat × Nat)} {whole : List β × Option σ × List α}
  {rest : List (Option α)}

/-- All output, then the last state, or `none` and the input behind an illegal symbol. -/
def transduce (step : σ → α → Option (σ × List β)) : σ → List α → List β × Option σ × List α
  | s, [] => ([], some s, [])
  | s, a :: as =>
    match step s a with
    | none => ([], none, as)
    | some (s', out) => ((out ++ (transduce step s' as).1), (transduce step s' as).2)

def after (out : List β) (r : List β × Option σ × List α) : List β × Option σ × List α :=
  (out ++ r.1, r.2)

@[simp] theorem after_nil (r : List β × Option σ × List α) : after [] r = r := rfl

@[simp] theorem after_after (out out' : List β) (r : List β × Option σ × List α) :
    after out (after out' r) = after (out ++ out') r := by
  simp [after]

variable {step : σ → α → Option (σ × List β)} {s s' : σ} {a : α} {as : List α} {out : List β}

@[simp] theorem transduce_nil : transduce step s [] = ([], some s, []) := rfl

theorem transduce_cons (h : step s a = some (s', out)) :
    transduce step s (a :: as) = after out (transduce step s' as) := by
  simp [transduce, h, after]

theorem transduce_cons_none (h : step s a = none) :
    transduce step s (a :: as) = ([], none, as) := by
  simp [transduce, h]

theorem transduce_congr (h : step s a = step s' a) :
    transduce step s (a :: as) = transduce step s' (a :: as) := by
  rw [transduce, transduce, h]

def stuckAt (step : σ → α → Option (σ × List β)) : σ → List α → Option σ
  | _, [] => none
  | s, a :: as =>
    match step s a with
    | none => some s
    | some (s', _) => stuckAt step s' as

theorem stuckAt_cons (h : step s a = some (s', out)) :
    stuckAt step s (a :: as) = stuckAt step s' as := by
  simp [stuckAt, h]

theorem stuckAt_cons_none (h : step s a = none) : stuckAt step s (a :: as) = some s := by
  simp [stuckAt, h]

theorem transduce_length_le {k : Nat} (h : ∀ {s a r}, step s a = some r → r.2.length ≤ k) :
    ∀ (as : List α) (s : σ), (transduce step s as).1.length ≤ k * as.length
  | [], _ => by simp
  | a :: as, s => by
    cases hs : step s a with
    | none => simp [transduce_cons_none hs]
    | some r =>
      have ih := transduce_length_le h as r.1
      have hout := h hs
      rw [transduce_cons hs, after, List.length_append, List.length_cons, Nat.mul_add_one]
      omega

/-- With any further input, the whole output is the output so far and then that of a state
and the input that it has not read. -/
def Follows (step : σ → α → Option (σ × List β)) (whole : List α → List β × Option σ × List α)
    (out : List β) (s : σ) (rest : List α) : Prop :=
  ∀ more, whole more = after out (transduce step s (rest ++ more))

theorem Follows.cons {whole : List α → List β × Option σ × List α} {out' : List β}
    (h : Follows step whole out s (a :: as)) (hs : step s a = some (s', out')) :
    Follows step whole (out ++ out') s' as := by
  intro more
  rw [h more, List.cons_append, transduce_cons hs, after_after]

/-- The result of a call, with the symbols of the buffer that it did not read. -/
structure Reply (κ α β : Type) where
  state : κ
  output : List β
  rest : List α
  failed : Bool

/-- What a call must keep: with any further input `more`, the output is that of the call
and then that of the new state. -/
structure Keeps (step : σ → α → Option (σ × List β)) (rep : κ → σ) (valid : κ → Prop) (state : κ)
    (source : List α) (reply : Reply κ α β) : Prop where
  proceeds : reply.failed = false → valid reply.state ∧ ∀ more,
    transduce step (rep state) (source ++ more) =
      after reply.output (transduce step (rep reply.state) (reply.rest ++ more))
  fails : reply.failed = true → ∀ more,
    transduce step (rep state) (source ++ more) = (reply.output, none, reply.rest ++ more)

structure Progress (κ α β : Type) where
  state : κ
  remaining : List α
  output : List β
  failed : Bool

variable (call : κ → List α → Nat → Reply κ α β)

/-- A call offers the next symbols of the input, and room for a number of symbols of output.
After a failure there are no more calls. -/
def serve (now : Progress κ α β) (request : Nat × Nat) : Progress κ α β :=
  if now.failed then now
  else
    let reply := call now.state (now.remaining.take request.1) request.2
    ⟨reply.state, reply.rest ++ now.remaining.drop request.1, now.output ++ reply.output,
      reply.failed⟩

def serveAll (start : κ) (input : List α) (requests : List (Nat × Nat)) : Progress κ α β :=
  requests.foldl (serve call) ⟨start, input, [], false⟩

/-- All calls from here on meet a condition on the state and on the room for output. -/
def Admits (admits : κ → Nat → Prop) : Progress κ α β → List (Nat × Nat) → Prop
  | _, [] => True
  | now, request :: requests =>
    (now.failed = false → admits now.state request.2) ∧
      Admits admits (serve call now request) requests

def decidableAdmits {admits : κ → Nat → Prop} [∀ state room, Decidable (admits state room)] :
    ∀ (now : Progress κ α β) (requests : List (Nat × Nat)), Decidable
      (Admits call admits now requests)
  | _, [] => isTrue trivial
  | now, request :: requests =>
    have : Decidable (Admits call admits (serve call now request) requests) :=
      decidableAdmits (serve call now request) requests
    inferInstanceAs (Decidable (_ ∧ _))

instance {admits : κ → Nat → Prop} [∀ state room, Decidable (admits state room)]
    (now : Progress κ α β) (requests : List (Nat × Nat)) :
    Decidable (Admits call admits now requests) := decidableAdmits call now requests

/-- All calls from here on meet a condition on the state, the source and the room for output. -/
def AdmitsCalls (admits : κ → List α → Nat → Prop) : Progress κ α β → List (Nat × Nat) → Prop
  | _, [] => True
  | now, request :: requests =>
    (now.failed = false → admits now.state (now.remaining.take request.1) request.2) ∧
      AdmitsCalls admits (serve call now request) requests

variable {now : Progress κ α β}

theorem Admits.calls {admits : κ → Nat → Prop} (h : Admits call admits now requests) :
    AdmitsCalls call (fun state _ room => admits state room) now requests := by
  induction requests generalizing now with
  | nil => exact trivial
  | cons request requests ih => exact ⟨h.1, ih h.2⟩

def decidableAdmitsCalls {admits : κ → List α → Nat → Prop}
    [∀ state source room, Decidable (admits state source room)] :
    ∀ (now : Progress κ α β) (requests : List (Nat × Nat)),
      Decidable (AdmitsCalls call admits now requests)
  | _, [] => isTrue trivial
  | now, request :: requests =>
    have : Decidable (AdmitsCalls call admits (serve call now request) requests) :=
      decidableAdmitsCalls (serve call now request) requests
    inferInstanceAs (Decidable (_ ∧ _))

/-- What holds between two calls: with the output so far, the whole output is the one that
the state and the remaining input give. -/
structure OnTrack (step : σ → α → Option (σ × List β)) (rep : κ → σ) (valid : κ → Prop)
    (whole : List β × Option σ × List α) (now : Progress κ α β) : Prop where
  proceeds : now.failed = false →
    valid now.state ∧ whole = after now.output (transduce step (rep now.state) now.remaining)
  fails : now.failed = true → whole = (now.output, none, now.remaining)

variable {call} {rep : κ → σ} {valid : κ → Prop} {admits : κ → Nat → Prop}

theorem OnTrack.serve {request : Nat × Nat} (h : OnTrack step rep valid whole now)
    (hcall : now.failed = false → Keeps step rep valid now.state (now.remaining.take request.1)
      (call now.state (now.remaining.take request.1) request.2)) :
    OnTrack step rep valid whole (serve call now request) := by
  cases hf : now.failed with
  | true => rwa [Transducer.serve, if_pos hf]
  | false =>
    obtain ⟨-, hwhole⟩ := h.proceeds hf
    have hkeeps := hcall hf
    rw [Transducer.serve, if_neg (by simp [hf])]
    constructor
    · intro hok
      obtain ⟨hv, heq⟩ := hkeeps.proceeds hok
      refine ⟨hv, ?_⟩
      have := heq (now.remaining.drop request.1)
      rw [List.take_append_drop] at this
      rw [hwhole, this, after_after]
    · intro hfail
      have := hkeeps.fails hfail (now.remaining.drop request.1)
      rw [List.take_append_drop] at this
      rw [hwhole, this]
      rfl

theorem OnTrack.serveCalls {admits : κ → List α → Nat → Prop}
    (hcall : ∀ state source capacity, valid state → admits state source capacity →
      Keeps step rep valid state source (call state source capacity))
    (h : OnTrack step rep valid whole now) (hadm : AdmitsCalls call admits now requests) :
    OnTrack step rep valid whole (requests.foldl (Transducer.serve call) now) := by
  induction requests generalizing now with
  | nil => exact h
  | cons request requests ih =>
    obtain ⟨hfirst, hlater⟩ := hadm
    rw [List.foldl_cons]
    exact ih (h.serve fun hf => hcall _ _ _ (h.proceeds hf).1 (hfirst hf)) hlater

theorem OnTrack.serveAll (hcall : ∀ state source capacity, valid state → admits state capacity →
      Keeps step rep valid state source (call state source capacity))
    (h : OnTrack step rep valid whole now) (hadm : Admits call admits now requests) :
    OnTrack step rep valid whole (requests.foldl (Transducer.serve call) now) :=
  h.serveCalls hcall (hadm.calls call)

theorem transduce_append_of_none {as' : List α} (h : (transduce step s as).2.1 = none) :
    (transduce step s (as ++ as')).2.1 = none := by
  induction as generalizing s with
  | nil => cases h
  | cons a as ih =>
    rw [List.cons_append]
    cases hs : step s a with
    | none => rw [transduce_cons_none hs]
    | some r =>
      rw [transduce_cons hs] at h ⊢
      exact ih h

theorem OnTrack.serveLegal
    (hcall : ∀ state source capacity, valid state → (transduce step (rep state) source).2.1 ≠ none →
      Keeps step rep valid state source (call state source capacity))
    (hlegal : whole.2.1 ≠ none) (h : OnTrack step rep valid whole now) :
    OnTrack step rep valid whole (requests.foldl (Transducer.serve call) now) := by
  induction requests generalizing now with
  | nil => exact h
  | cons request requests ih =>
    rw [List.foldl_cons]
    refine ih (h.serve fun hf => ?_)
    obtain ⟨hv, hwhole⟩ := h.proceeds hf
    refine hcall _ _ _ hv fun hnone => hlegal ?_
    have hall := @transduce_append_of_none _ _ _ step (rep now.state) _
      (now.remaining.drop request.1) hnone
    rw [List.take_append_drop] at hall
    rw [hwhole]
    exact hall

/-! ## Texts with an end

A symbol for the end of a text lets a call know that it gets the last part of it. -/

/-- The symbols up to the first end, and the rest. -/
def splitEnd : List (Option α) → List α × List (Option α)
  | some a :: as => (a :: (splitEnd as).1, (splitEnd as).2)
  | as => ([], as)

theorem splitEnd_append : ∀ as : List (Option α), (splitEnd as).1.map some ++ (splitEnd as).2 = as
  | [] => rfl
  | none :: _ => rfl
  | some a :: as => by
    rw [splitEnd, List.map_cons, List.cons_append, splitEnd_append as]

theorem splitEnd_cases : ∀ as : List (Option α),
    (splitEnd as).2 = [] ∨ ∃ as', (splitEnd as).2 = none :: as'
  | [] => Or.inl rfl
  | none :: as => Or.inr ⟨as, rfl⟩
  | some _ :: as => splitEnd_cases as

/-- A call that has read a part of the symbols before the end, and then perhaps the end. -/
theorem rest_suffix {as : List (Option α)} {unread : List α} (h : unread <:+ (splitEnd as).1)
    {p : Prop} [Decidable p] (hp : p → unread = []) :
    unread.map some ++ (if p then (splitEnd as).2.tail else (splitEnd as).2) <:+ as := by
  obtain ⟨front, hfront⟩ := h
  have hall := splitEnd_append as
  rw [← hfront, List.map_append, List.append_assoc] at hall
  split
  · next hread =>
    rw [hp hread, List.map_nil, List.nil_append] at hall ⊢
    exact (List.tail_suffix _).trans ⟨_, hall⟩
  · exact ⟨_, hall⟩

def ended (s : List α) : List (Option α) := s.map some ++ [none]

theorem eq_nil_of_none_suffix {s : List α} (h : none :: rest <:+ ended s) : rest = [] := by
  induction s with
  | nil =>
    obtain ⟨front, hfront⟩ := h
    have hlength := congrArg List.length hfront
    rw [ended, List.map_nil, List.nil_append, List.length_append, List.length_cons,
      List.length_singleton] at hlength
    exact List.eq_nil_of_length_eq_zero (by omega)
  | cons a s ih =>
    rw [ended, List.map_cons, List.cons_append, List.suffix_cons_iff] at h
    rcases h with h | h
    · cases h
    · exact ih h

theorem splitEnd_tail_of_suffix {s : List α} (h : rest <:+ ended s) :
    (splitEnd rest).2.tail = [] := by
  induction rest with
  | nil => rfl
  | cons a rest ih =>
    cases a with
    | none => exact eq_nil_of_none_suffix h
    | some a =>
      rw [splitEnd]
      exact ih ((List.suffix_cons (some a) rest).trans h)

theorem serveAll_suffix (hcall : ∀ state source room, (call state source room).rest <:+ source)
    (start : κ) (input : List α) (requests : List (Nat × Nat)) :
    (serveAll call start input requests).remaining <:+ input := by
  have hserve : ∀ (now : Progress κ α β) (request : Nat × Nat), now.remaining <:+ input →
      (serve call now request).remaining <:+ input := by
    intro now request hnow
    unfold serve
    split
    · exact hnow
    refine List.IsSuffix.trans ?_ hnow
    obtain ⟨front, hfront⟩ := hcall now.state (now.remaining.take request.1) request.2
    refine ⟨front, ?_⟩
    rw [← List.append_assoc, hfront, List.take_append_drop]
  unfold serveAll
  generalize hnow : (⟨start, input, [], false⟩ : Progress κ α β) = now
  have hstart : now.remaining <:+ input := by
    simp [← hnow]
  clear hnow
  induction requests generalizing now with
  | nil => exact hstart
  | cons request requests ih => exact ih _ (hserve now request hstart)

end Icu.Lib.Transducer
