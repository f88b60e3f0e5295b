import Icu.Lib.LocalLanguage

/-! # Words that overlap in a letter

A position that can be last may go on like a first position with the same letter. The words are
then chains of words of the language, each of which begins with the last letter of the one before.
-/

namespace Icu.Lib

/-- Words one after the other, where neighbours have a letter in common. -/
def overlapAll {α : Type} : List (List α) → List α
  | [] => []
  | [x] => x
  | x :: y :: xs => x.dropLast ++ overlapAll (y :: xs)

/-- The last letter of each word is the first letter of the next one. -/
def Links {α : Type} (xs : List (List α)) : Prop :=
  xs.IsChain fun x y => x.getLast? = y.head?

def overlaps {α : Type} (l : Language α) : Language α :=
  {w | ∃ xs, xs ≠ [] ∧ (∀ x ∈ xs, x ∈ l ∧ x ≠ []) ∧ Links xs ∧ overlapAll xs = w}

section

variable {α : Type} {a b : α} {u w : List α} {xs : List (List α)}

theorem overlapAll_cons_cons :
    overlapAll ((a :: b :: u) :: xs) = a :: overlapAll ((b :: u) :: xs) := by
  cases xs with
  | nil => rfl
  | cons x xs => simp [overlapAll]

theorem overlapAll_singleton (x : List α) : overlapAll ([a] :: x :: xs) = overlapAll (x :: xs) :=
    rfl

theorem links_cons_cons : Links ((a :: b :: u) :: xs) ↔ Links ((b :: u) :: xs) := by
  cases xs with
  | nil => simp [Links]
  | cons x xs => simp [Links, List.getLast?_cons_cons]

theorem links_singleton (x : List α) :
    Links ([a] :: x :: xs) ↔ x.head? = some a ∧ Links (x :: xs) := by
  simp [Links, eq_comm]

theorem exists_overlapAll (hlinks : Links ((a :: u) :: xs)) :
    ∃ w, overlapAll ((a :: u) :: xs) = a :: w := by
  induction xs generalizing a u with
  | nil => exact ⟨u, rfl⟩
  | cons x xs ih =>
    cases u with
    | nil =>
      obtain ⟨hhead, hlinks⟩ := (links_singleton x).mp hlinks
      obtain ⟨x, rfl⟩ := List.head?_eq_some_iff.mp hhead
      exact ih hlinks
    | cons b u => exact ⟨_, overlapAll_cons_cons⟩

theorem ne_nil_of_mem_overlaps {l : Language α} (h : w ∈ overlaps l) : w ≠ [] := by
  rintro rfl
  obtain ⟨xs, hxs, hwords, hlinks, hall⟩ := h
  cases xs with
  | nil => exact hxs rfl
  | cons x xs =>
    cases x with
    | nil => exact (hwords [] List.mem_cons_self).2 rfl
    | cons a u =>
      obtain ⟨v, hv⟩ := exists_overlapAll hlinks
      rw [hall] at hv
      contradiction

end

namespace LocalSpec

variable {π α : Type} {S : LocalSpec π} {label : π → α} {p q : π}

/-- What can follow a first position with the same letter can follow a last position. -/
def chain (S : LocalSpec π) (label : π → α) : LocalSpec π :=
  { S with follow := fun p =>
    S.follow p ∪ {q | p ∈ S.last ∧ ∃ s ∈ S.first, label s = label p ∧ q ∈ S.follow s} }

/-- After position `p` the letters `w` complete a word, and then a chain of words. -/
def Chains (S : LocalSpec π) (label : π → α) (p : π) (w : List α) : Prop :=
  ∃ u xs, S.Completes label p u ∧ (∀ x ∈ xs, x ∈ S.language label ∧ x ≠ []) ∧
    Links ((label p :: u) :: xs) ∧ overlapAll ((label p :: u) :: xs) = label p :: w

theorem Chains.step {w : List α} (hq : q ∈ S.follow p) (h : S.Chains label q w) :
    S.Chains label p (label q :: w) := by
  obtain ⟨u, xs, hu, hxs, hlinks, hw⟩ := h
  exact ⟨label q :: u, xs, ⟨q, hq, rfl, hu⟩, hxs, links_cons_cons.mpr hlinks,
    by rw [overlapAll_cons_cons, hw]⟩

theorem Chains.step_next {s : π} {w : List α} (hp : p ∈ S.last) (hs : s ∈ S.first)
    (hlabel : label s = label p) (hq : q ∈ S.follow s) (h : S.Chains label q w) :
    S.Chains label p (label q :: w) := by
  obtain ⟨u, xs, hu, hxs, hlinks, hw⟩ := h
  refine ⟨[], (label p :: label q :: u) :: xs, hp, ?_, ?_, ?_⟩
  · intro x hx
    rcases List.mem_cons.mp hx with rfl | hx
    · exact ⟨⟨s, hs, hlabel, q, hq, rfl, hu⟩, List.cons_ne_nil _ _⟩
    · exact hxs x hx
  · exact (links_singleton _).mpr ⟨rfl, links_cons_cons.mpr hlinks⟩
  · rw [overlapAll_singleton, overlapAll_cons_cons, hw]

theorem chains_of_completes {w : List α} (h : (S.chain label).Completes label p w) :
    S.Chains label p w := by
  induction w generalizing p with
  | nil => exact ⟨[], [], h, by simp, by simp [Links], rfl⟩
  | cons b w ih =>
    obtain ⟨q, hq, rfl, hw⟩ := h
    rcases hq with hq | ⟨hlast, s, hs, hlabel, hq⟩
    · exact (ih hw).step hq
    · exact (ih hw).step_next hlast hs hlabel hq

/-- The words that are left are taken one after the other, each of them letter by letter. -/
theorem completes_chain {xs : List (List α)} {u w : List α} (hu : S.Completes label p u)
    (hxs : ∀ x ∈ xs, x ∈ S.language label ∧ x ≠ []) (hlinks : Links ((label p :: u) :: xs))
    (hw : overlapAll ((label p :: u) :: xs) = label p :: w) :
    (S.chain label).Completes label p w := by
  induction xs generalizing p u w with
  | nil =>
    obtain rfl : u = w := (List.cons.inj hw).2
    clear hw hlinks hxs
    induction u generalizing p with
    | nil => exact hu
    | cons b u ih =>
      obtain ⟨q, hq, rfl, hu⟩ := hu
      exact ⟨q, .inl hq, rfl, ih hu⟩
  | cons x xs ihxs =>
    induction u generalizing p w with
    | cons b u ihu =>
      obtain ⟨q, hq, rfl, hu⟩ := hu
      have hlinks' := links_cons_cons.mp hlinks
      obtain ⟨v, hv⟩ := exists_overlapAll hlinks'
      rw [overlapAll_cons_cons, List.cons_inj_right, hv] at hw
      subst hw
      exact ⟨q, .inl hq, rfl, ihu hu hlinks' hv⟩
    | nil =>
      -- the next word begins with the letter of this position
      obtain ⟨hhead, hlinks'⟩ := (links_singleton x).mp hlinks
      obtain ⟨x, rfl⟩ := List.head?_eq_some_iff.mp hhead
      rw [overlapAll_singleton] at hw
      obtain ⟨⟨⟨s, hs, hlabel, hx⟩, -⟩, hrest⟩ := List.forall_mem_cons.mp hxs
      cases x with
      | nil => exact ihxs hu hrest hlinks' hw
      | cons b x =>
        obtain ⟨q, hq, rfl, hx⟩ := hx
        obtain ⟨v, hv⟩ := exists_overlapAll (links_cons_cons.mp hlinks')
        rw [overlapAll_cons_cons, List.cons_inj_right, hv] at hw
        subst hw
        exact ⟨q, .inr ⟨hu, s, hs, hlabel, hq⟩, rfl,
          ihxs hx hrest (links_cons_cons.mp hlinks') hv⟩

theorem language_chain {w : List α} (hne : w ≠ []) :
    w ∈ (S.chain label).language label ↔ w ∈ overlaps (S.language label) := by
  cases w with
  | nil => exact absurd rfl hne
  | cons a w =>
    rw [cons_mem_language]
    constructor
    · rintro ⟨p, hp, rfl, hw⟩
      obtain ⟨u, xs, hu, hxs, hlinks, hall⟩ := chains_of_completes hw
      refine ⟨(label p :: u) :: xs, List.cons_ne_nil _ _, ?_, hlinks, hall⟩
      exact List.forall_mem_cons.mpr ⟨⟨⟨p, hp, rfl, hu⟩, List.cons_ne_nil _ _⟩, hxs⟩
    rintro ⟨xs, hxs, hwords, hlinks, hall⟩
    cases xs with
    | nil => exact absurd rfl hxs
    | cons x xs =>
      obtain ⟨⟨hx, hx'⟩, hrest⟩ := List.forall_mem_cons.mp hwords
      cases x with
      | nil => exact absurd rfl hx'
      | cons b u =>
        obtain ⟨p, hp, rfl, hu⟩ := hx
        obtain ⟨v, hv⟩ := exists_overlapAll hlinks
        obtain ⟨rfl, rfl⟩ := List.cons.inj (hv.symm.trans hall)
        exact ⟨p, hp, rfl, completes_chain hu hrest hlinks hv⟩

end LocalSpec

end Icu.Lib
