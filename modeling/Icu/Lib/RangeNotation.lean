import Mathlib.Order.Interval.Set.Basic

/-! # Sets written as characters and ranges

A set is written as a sequence of characters, where a hyphen between two characters stands
for what is between them. Reading goes from left to right and keeps the last character, since
a hyphen may follow it.
-/

namespace Icu.Lib.RangeNotation

variable {α : Type*} [LinearOrder α]

inductive Item (α : Type*)
  | char (c : α)
  | hyphen

/-- The set so far, the last character if it is not part of the set yet, and whether a hyphen
follows it. -/
structure State (α : Type*) where
  set : Set α
  last : Option α
  hyphen : Bool

namespace State

variable {l : α} {vs : Set α}

def total (s : State α) : Set α := s.set ∪ {c | s.last = some c}

/-- A hyphen needs a character before it, and a larger one behind it. -/
def read (s : State α) : Item α → Option (State α)
  | .char c =>
    match s.last with
    | none => some ⟨s.set, some c, false⟩
    | some l =>
      if s.hyphen then if l < c then some ⟨s.set ∪ Set.Icc l c, none, false⟩ else none
      else some ⟨s.set ∪ {l}, some c, false⟩
  | .hyphen => if s.last.isSome && !s.hyphen then some { s with hyphen := true } else none

def run (s : State α) : List (Item α) → Option (State α)
  | [] => some s
  | x :: items => (s.read x).bind fun s => s.run items

theorem run_append (s : State α) (xs ys : List (Item α)) :
    s.run (xs ++ ys) = (s.run xs).bind fun s => s.run ys := by
  induction xs generalizing s with
  | nil => rfl
  | cons x xs ih =>
    rw [List.cons_append, run, run, Option.bind_assoc]
    exact congrArg _ (funext fun s => ih s)

/-- A set begins and ends only at the given values. -/
structure Bounded (values : Set α) (D : Set α) : Prop where
  stop : ∀ {x y}, x ∈ D → y ∉ D → x < y → ∃ v ∈ values, x ≤ v ∧ v < y
  start : ∀ {x y}, x ∉ D → y ∈ D → x < y → ∃ v ∈ values, x < v ∧ v ≤ y

theorem bounded_empty (values : Set α) : Bounded values (∅ : Set α) where
  stop hx _ _ := hx.elim
  start _ hy _ := hy.elim

theorem Bounded.union_Icc {values D : Set α} (h : Bounded values D) {c : α} (hl : l ∈ values)
    (hc : c ∈ values) : Bounded values (D ∪ Set.Icc l c) where
  stop {x y} hx hy hlt := by
    rw [Set.mem_union, not_or] at hy
    rcases hx with hx | hx
    · exact h.stop hx hy.1 hlt
    refine ⟨c, hc, hx.2, ?_⟩
    by_contra hle
    exact hy.2 ⟨le_of_lt (lt_of_le_of_lt hx.1 hlt), not_lt.mp hle⟩
  start {x y} hx hy hlt := by
    rw [Set.mem_union, not_or] at hx
    rcases hy with hy | hy
    · exact h.start hx.1 hy hlt
    refine ⟨l, hl, ?_, hy.1⟩
    by_contra hle
    exact hx.2 ⟨not_lt.mp hle, le_of_lt (lt_of_lt_of_le hlt hy.2)⟩

def values (items : List (Item α)) : Set α := {c | Item.char c ∈ items}

variable {s : State α}

theorem total_of_last (h : s.last = some l) : s.total = s.set ∪ Set.Icc l l := by
  ext x
  rw [total, Set.Icc_self, h]
  simp [eq_comm]

/-- What is read begins and ends only at characters. -/
structure Within (vs : Set α) (s : State α) : Prop where
  set : Bounded vs s.set
  last : ∀ c, s.last = some c → c ∈ vs

theorem Within.total (h : Within vs s) : Bounded vs s.total := by
  cases hlast : s.last with
  | none =>
    have htotal : s.total = s.set := by
      rw [State.total, hlast]
      simp
    rw [htotal]
    exact h.set
  | some l =>
    rw [total_of_last hlast]
    exact h.set.union_Icc (h.last l hlast) (h.last l hlast)

theorem Within.read {s' : State α} (h : Within vs s) {x : Item α}
    (hx : ∀ c, x = .char c → c ∈ vs) (hread : s.read x = some s') : Within vs s' := by
  cases x with
  | char c =>
    have hc := hx c rfl
    have hlast : ∀ d, some c = some d → d ∈ vs := fun d hd => Option.some.inj hd ▸ hc
    simp only [State.read] at hread
    split at hread
    · cases hread
      exact ⟨h.set, hlast⟩
    · next l hl =>
      have hmem := h.last l hl
      split at hread
      · split at hread
        · cases hread
          exact ⟨h.set.union_Icc hmem hc, fun d hd => by cases hd⟩
        · cases hread
      · cases hread
        refine ⟨?_, hlast⟩
        rw [← Set.Icc_self]
        exact h.set.union_Icc hmem hmem
  | hyphen =>
    simp only [State.read] at hread
    split at hread
    · cases hread
      exact ⟨h.set, h.last⟩
    · cases hread

theorem Within.run {s' : State α} (h : Within vs s) {items : List (Item α)}
    (hitems : values items ⊆ vs) (hrun : s.run items = some s') : Within vs s' := by
  induction items generalizing s with
  | nil =>
    cases hrun
    exact h
  | cons x items ih =>
    obtain ⟨s₁, hread, hrun⟩ := Option.bind_eq_some_iff.mp hrun
    refine ih (h.read (fun c hc => hitems ?_) hread) (fun c hc => hitems ?_) hrun
    · rw [hc]
      exact List.mem_cons_self
    · exact List.mem_cons_of_mem _ hc

theorem run_char (h : s.hyphen = false) (c : α) :
    ∃ s', s.run [.char c] = some s' ∧ s'.hyphen = false ∧ s'.total = s.total ∪ {c} ∧
      s'.last = some c := by
  cases hlast : s.last with
  | none =>
    refine ⟨⟨s.set, some c, false⟩, ?_, rfl, ?_, rfl⟩
    · simp [run, read, hlast]
    ext x
    simp [total, hlast, eq_comm]
  | some l =>
    refine ⟨⟨s.set ∪ {l}, some c, false⟩, ?_, rfl, ?_, rfl⟩
    · simp [run, read, hlast, h]
    ext x
    simp [total, hlast, eq_comm]

theorem run_range (h : s.hyphen = false) {a b : α} (hab : a < b) :
    ∃ s', s.run [.char a, .hyphen, .char b] = some s' ∧ s'.hyphen = false ∧
      s'.total = s.total ∪ Set.Icc a b := by
  obtain ⟨s₁, hrun, hhyphen, htotal, hlast⟩ := run_char h a
  refine ⟨⟨s₁.set ∪ Set.Icc a b, none, false⟩, ?_, rfl, ?_⟩
  · rw [show ([.char a, .hyphen, .char b] : List (Item α)) = [.char a] ++ [.hyphen, .char b]
      from rfl,
      run_append, hrun]
    simp [run, read, hlast, hhyphen, hab]
  rw [total_of_last hlast, Set.Icc_self] at htotal
  have hmem : ({a} : Set α) ⊆ Set.Icc a b := Set.singleton_subset_iff.mpr ⟨le_refl a, le_of_lt hab⟩
  have hset : s₁.set ∪ Set.Icc a b = s.total ∪ Set.Icc a b := by
    rw [← Set.union_eq_self_of_subset_left hmem, ← Set.union_assoc, htotal, Set.union_assoc]
  simpa [total] using hset

end State

end Icu.Lib.RangeNotation
