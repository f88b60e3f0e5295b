import Mathlib.Computability.Language
import Mathlib.Order.CompletePartialOrder

/-! # Languages of positions

A regular expression whose letters are at distinct positions is described by the positions that
a word can begin with, the ones that it can end with, and the ones that can follow each other.
These descriptions compose as the languages do.
-/

namespace Icu.Lib

open Computability

structure LocalSpec (π : Type) where
  nullable : Prop
  first : Set π
  last : Set π
  follow : π → Set π

namespace LocalSpec

variable {π α : Type} {w : List α} {a : α} {nullable : Prop}

/-- After position `p` the letters `w` complete a word. -/
def Completes (S : LocalSpec π) (label : π → α) : π → List α → Prop
  | p, [] => p ∈ S.last
  | p, a :: w => ∃ q ∈ S.follow p, label q = a ∧ S.Completes label q w

def language (S : LocalSpec π) (label : π → α) : Language α :=
  {w | match w with
    | [] => S.nullable
    | a :: w => ∃ p ∈ S.first, label p = a ∧ S.Completes label p w}

structure Within (S : LocalSpec π) (A : Set π) : Prop where
  first : S.first ⊆ A
  last : S.last ⊆ A
  follow : ∀ p q, q ∈ S.follow p → p ∈ A ∧ q ∈ A

def letter (p : π) : LocalSpec π := ⟨False, {p}, {p}, fun _ => ∅⟩

def union (S T : LocalSpec π) : LocalSpec π :=
  ⟨S.nullable ∨ T.nullable, S.first ∪ T.first, S.last ∪ T.last, fun p => S.follow p ∪ T.follow p⟩

def concat (S T : LocalSpec π) : LocalSpec π where
  nullable := S.nullable ∧ T.nullable
  first := S.first ∪ {p | S.nullable ∧ p ∈ T.first}
  last := T.last ∪ {p | T.nullable ∧ p ∈ S.last}
  follow p := S.follow p ∪ T.follow p ∪ {q | p ∈ S.last ∧ q ∈ T.first}

/-- Words one after the other, where the empty word is allowed or not. -/
def closure (nullable : Prop) (S : LocalSpec π) : LocalSpec π :=
  { S with nullable := nullable, follow := fun p => S.follow p ∪ {q | p ∈ S.last ∧ q ∈ S.first} }

def optional (S : LocalSpec π) : LocalSpec π := { S with nullable := True }

variable {S T : LocalSpec π} {A B : Set π} {label : π → α}

@[simp] theorem nil_mem_language : [] ∈ S.language label ↔ S.nullable := Iff.rfl

@[simp] theorem cons_mem_language : a :: w ∈ S.language label ↔
    ∃ p ∈ S.first, label p = a ∧ S.Completes label p w := Iff.rfl

theorem language_letter (p : π) : (letter p).language label = {[label p]} := by
  ext w
  cases w with
  | nil => exact ⟨fun h => h.elim, fun h => absurd (Set.mem_singleton_iff.mp h) (by simp)⟩
  | cons a w =>
    rw [cons_mem_language]
    constructor
    · rintro ⟨q, rfl, rfl, hw⟩
      cases w with
      | nil => rfl
      | cons b w =>
        obtain ⟨r, hr, -⟩ := hw
        exact absurd hr (Set.notMem_empty r)
    · intro h
      obtain ⟨rfl, rfl⟩ := List.cons.inj (Set.mem_singleton_iff.mp h)
      exact ⟨p, rfl, rfl, rfl⟩

theorem completes_union_left (hT : T.Within B) (hAB : Disjoint A B) (hS : S.Within A) :
    ∀ {p : π} {w : List α}, p ∈ A → ((S.union T).Completes label p w ↔ S.Completes label p w)
  | p, [], hp => by
    refine ⟨fun h => h.resolve_right fun hcon => ?_, Or.inl⟩
    exact hAB.notMem_of_mem_left hp (hT.last hcon)
  | p, a :: w, hp => by
    constructor
    · rintro ⟨q, hq, hlabel, hw⟩
      have hq : q ∈ S.follow p := hq.resolve_right fun hcon =>
        hAB.notMem_of_mem_left hp (hT.follow p q hcon).1
      exact ⟨q, hq, hlabel, (completes_union_left hT hAB hS (hS.follow p q hq).2).mp hw⟩
    · rintro ⟨q, hq, hlabel, hw⟩
      exact ⟨q, .inl hq, hlabel, (completes_union_left hT hAB hS (hS.follow p q hq).2).mpr hw⟩

theorem union_comm (S T : LocalSpec π) : S.union T = T.union S := by
  simp only [union, or_comm, Set.union_comm]

theorem language_union (hS : S.Within A) (hT : T.Within B) (hAB : Disjoint A B) :
    (S.union T).language label = S.language label + T.language label := by
  ext w
  rw [Language.mem_add]
  cases w with
  | nil => exact Iff.rfl
  | cons a w =>
    have hleft : ∀ p ∈ S.first, (S.union T).Completes label p w ↔ S.Completes label p w :=
      fun p hp => completes_union_left hT hAB hS (hS.first hp)
    have hright : ∀ p ∈ T.first, (S.union T).Completes label p w ↔ T.Completes label p w := by
      intro p hp
      rw [union_comm]
      exact completes_union_left hS hAB.symm hT (hT.first hp)
    simp only [cons_mem_language]
    constructor
    · rintro ⟨p, hp | hp, hlabel, hw⟩
      · exact .inl ⟨p, hp, hlabel, (hleft p hp).mp hw⟩
      · exact .inr ⟨p, hp, hlabel, (hright p hp).mp hw⟩
    · rintro (⟨p, hp, hlabel, hw⟩ | ⟨p, hp, hlabel, hw⟩)
      · exact ⟨p, .inl hp, hlabel, (hleft p hp).mpr hw⟩
      · exact ⟨p, .inr hp, hlabel, (hright p hp).mpr hw⟩

theorem Within.union (hS : S.Within A) (hT : T.Within B) : (S.union T).Within (A ∪ B) := by
  refine ⟨Set.union_subset_union hS.first hT.first, Set.union_subset_union hS.last hT.last, ?_⟩
  rintro p q (hq | hq)
  · exact ⟨.inl (hS.follow p q hq).1, .inl (hS.follow p q hq).2⟩
  · exact ⟨.inr (hT.follow p q hq).1, .inr (hT.follow p q hq).2⟩

theorem completes_concat_right (hS : S.Within A) (hT : T.Within B) (hAB : Disjoint A B) :
    ∀ {p : π} {w : List α}, p ∈ B → ((S.concat T).Completes label p w ↔ T.Completes label p w)
  | p, [], hp => by
    refine ⟨fun h => h.resolve_right fun hcon => ?_, Or.inl⟩
    exact hAB.notMem_of_mem_left (hS.last hcon.2) hp
  | p, a :: w, hp => by
    constructor
    · rintro ⟨q, (hq | hq) | hq, hlabel, hw⟩
      · exact absurd hp (hAB.notMem_of_mem_left (hS.follow p q hq).1)
      · exact ⟨q, hq, hlabel, (completes_concat_right hS hT hAB (hT.follow p q hq).2).mp hw⟩
      · exact absurd hp (hAB.notMem_of_mem_left (hS.last hq.1))
    · rintro ⟨q, hq, hlabel, hw⟩
      exact ⟨q, .inl (.inr hq), hlabel,
        (completes_concat_right hS hT hAB (hT.follow p q hq).2).mpr hw⟩

theorem completes_concat_left (hS : S.Within A) (hT : T.Within B) (hAB : Disjoint A B) :
    ∀ {p : π} {w : List α}, p ∈ A → ((S.concat T).Completes label p w ↔
      ∃ u v, w = u ++ v ∧ S.Completes label p u ∧ v ∈ T.language label)
  | p, [], hp => by
    constructor
    · rintro (hcon | ⟨hnull, hlast⟩)
      · exact absurd (hT.last hcon) (hAB.notMem_of_mem_left hp)
      · exact ⟨[], [], rfl, hlast, hnull⟩
    · rintro ⟨u, v, huv, hu, hv⟩
      obtain ⟨rfl, rfl⟩ := List.append_eq_nil_iff.mp huv.symm
      exact .inr ⟨hv, hu⟩
  | p, a :: w, hp => by
    constructor
    · rintro ⟨q, (hq | hq) | ⟨hlast, hfirst⟩, hlabel, hw⟩
      · obtain ⟨u, v, rfl, hu, hv⟩ :=
          (completes_concat_left hS hT hAB (hS.follow p q hq).2).mp hw
        exact ⟨a :: u, v, rfl, ⟨q, hq, hlabel, hu⟩, hv⟩
      · exact absurd (hT.follow p q hq).1 (hAB.notMem_of_mem_left hp)
      · exact ⟨[], a :: w, rfl, hlast, q, hfirst, hlabel,
          (completes_concat_right hS hT hAB (hT.first hfirst)).mp hw⟩
    rintro ⟨u, v, huv, hu, hv⟩
    cases u with
    | nil =>
      obtain rfl : a :: w = v := huv
      obtain ⟨q, hfirst, hlabel, hw⟩ := hv
      exact ⟨q, .inr ⟨hu, hfirst⟩, hlabel,
        (completes_concat_right hS hT hAB (hT.first hfirst)).mpr hw⟩
    | cons b u =>
      obtain ⟨rfl, rfl⟩ := List.cons.inj huv
      obtain ⟨q, hq, hlabel, hu⟩ := hu
      exact ⟨q, .inl (.inl hq), hlabel,
        (completes_concat_left hS hT hAB (hS.follow p q hq).2).mpr ⟨u, v, rfl, hu, hv⟩⟩

theorem language_concat (hS : S.Within A) (hT : T.Within B) (hAB : Disjoint A B) :
    (S.concat T).language label = S.language label * T.language label := by
  ext w
  rw [Language.mem_mul]
  cases w with
  | nil =>
    constructor
    · rintro ⟨h1, h2⟩
      exact ⟨[], h1, [], h2, rfl⟩
    rintro ⟨u, hu, v, hv, huv⟩
    obtain ⟨rfl, rfl⟩ := List.append_eq_nil_iff.mp huv
    exact ⟨hu, hv⟩
  | cons a w =>
    constructor
    · rintro ⟨p, hp | ⟨hnull, hp⟩, hlabel, hw⟩
      · obtain ⟨u, v, rfl, hu, hv⟩ := (completes_concat_left hS hT hAB (hS.first hp)).mp hw
        exact ⟨a :: u, ⟨p, hp, hlabel, hu⟩, v, hv, rfl⟩
      · exact ⟨[], hnull, a :: w, ⟨p, hp, hlabel,
          (completes_concat_right hS hT hAB (hT.first hp)).mp hw⟩, rfl⟩
    rintro ⟨u, hu, v, hv, huv⟩
    cases u with
    | nil =>
      obtain rfl : v = a :: w := huv
      obtain ⟨p, hp, hlabel, hw⟩ := hv
      exact ⟨p, .inr ⟨hu, hp⟩, hlabel,
        (completes_concat_right hS hT hAB (hT.first hp)).mpr hw⟩
    | cons b u =>
      obtain ⟨rfl, rfl⟩ := List.cons.inj huv
      obtain ⟨p, hp, hlabel, hu⟩ := hu
      exact ⟨p, .inl hp, hlabel,
        (completes_concat_left hS hT hAB (hS.first hp)).mpr ⟨u, v, rfl, hu, hv⟩⟩

theorem Within.concat (hS : S.Within A) (hT : T.Within B) : (S.concat T).Within (A ∪ B) := by
  refine ⟨?_, ?_, ?_⟩
  · rintro p (hp | ⟨-, hp⟩)
    · exact .inl (hS.first hp)
    · exact .inr (hT.first hp)
  · rintro p (hp | ⟨-, hp⟩)
    · exact .inr (hT.last hp)
    · exact .inl (hS.last hp)
  · rintro p q ((hq | hq) | ⟨h1, h2⟩)
    · exact ⟨.inl (hS.follow p q hq).1, .inl (hS.follow p q hq).2⟩
    · exact ⟨.inr (hT.follow p q hq).1, .inr (hT.follow p q hq).2⟩
    · exact ⟨.inl (hS.last h1), .inr (hT.first h2)⟩

theorem cons_mem_kstar {l : Language α} :
    a :: w ∈ l∗ ↔ ∃ u v, w = u ++ v ∧ a :: u ∈ l ∧ v ∈ l∗ := by
  constructor
  · intro h
    rw [Language.kstar_def_nonempty] at h
    obtain ⟨words, hflat, hwords⟩ := h
    cases words with
    | nil => exact absurd hflat (by simp)
    | cons u words =>
      obtain ⟨hu, hne⟩ := hwords u List.mem_cons_self
      cases u with
      | nil => exact absurd rfl hne
      | cons b u =>
        rw [List.flatten_cons, List.cons_append] at hflat
        obtain ⟨rfl, rfl⟩ := List.cons.inj hflat
        exact ⟨u, words.flatten, rfl, hu, Language.join_mem_kstar fun y hy =>
          (hwords y (List.mem_cons_of_mem _ hy)).1⟩
  · rintro ⟨u, v, rfl, hu, hv⟩
    obtain ⟨words, rfl, hwords⟩ := Language.mem_kstar.mp hv
    exact Language.mem_kstar.mpr ⟨(a :: u) :: words, rfl, by
      intro y hy
      rcases List.mem_cons.mp hy with rfl | hy
      · exact hu
      · exact hwords y hy⟩

theorem completes_closure : ∀ {p : π} {w : List α}, (S.closure nullable).Completes label p w ↔
      ∃ u v, w = u ++ v ∧ S.Completes label p u ∧ v ∈ (S.language label)∗
  | p, [] => by
    constructor
    · exact fun h => ⟨[], [], rfl, h, Language.nil_mem_kstar _⟩
    rintro ⟨u, v, huv, hu, -⟩
    obtain ⟨rfl, rfl⟩ := List.append_eq_nil_iff.mp huv.symm
    exact hu
  | p, a :: w => by
    constructor
    · rintro ⟨q, hq | ⟨hlast, hfirst⟩, hlabel, hw⟩
      · obtain ⟨u, v, rfl, hu, hv⟩ := completes_closure.mp hw
        exact ⟨a :: u, v, rfl, ⟨q, hq, hlabel, hu⟩, hv⟩
      obtain ⟨u, v, rfl, hu, hv⟩ := completes_closure.mp hw
      exact ⟨[], a :: (u ++ v), rfl, hlast,
        cons_mem_kstar.mpr ⟨u, v, rfl, ⟨q, hfirst, hlabel, hu⟩, hv⟩⟩
    rintro ⟨u, v, huv, hu, hv⟩
    cases u with
    | nil =>
      obtain rfl : a :: w = v := huv
      obtain ⟨u, v, rfl, ⟨q, hfirst, hlabel, hu'⟩, hv⟩ := cons_mem_kstar.mp hv
      exact ⟨q, .inr ⟨hu, hfirst⟩, hlabel, completes_closure.mpr ⟨u, v, rfl, hu', hv⟩⟩
    | cons b u =>
      obtain ⟨rfl, rfl⟩ := List.cons.inj huv
      obtain ⟨q, hq, hlabel, hu⟩ := hu
      exact ⟨q, .inl hq, hlabel, completes_closure.mpr ⟨u, v, rfl, hu, hv⟩⟩

theorem cons_mem_language_closure :
    a :: w ∈ (S.closure nullable).language label ↔ a :: w ∈ (S.language label)∗ := by
  rw [cons_mem_kstar, cons_mem_language]
  constructor
  · rintro ⟨p, hp, hlabel, hw⟩
    obtain ⟨u, v, rfl, hu, hv⟩ := completes_closure.mp hw
    exact ⟨u, v, rfl, ⟨p, hp, hlabel, hu⟩, hv⟩
  · rintro ⟨u, v, rfl, ⟨p, hp, hlabel, hu⟩, hv⟩
    exact ⟨p, hp, hlabel, completes_closure.mpr ⟨u, v, rfl, hu, hv⟩⟩

theorem language_star : (S.closure True).language label = (S.language label)∗ := by
  ext w
  cases w with
  | nil => exact ⟨fun _ => Language.nil_mem_kstar _, fun _ => trivial⟩
  | cons a w => exact cons_mem_language_closure

theorem language_closure_false : (S.closure False).language label = (S.language label)∗ - 1 := by
  ext w
  rw [Language.mem_sub, Language.mem_one]
  cases w with
  | nil => exact ⟨fun h => h.elim, fun h => h.2 rfl⟩
  | cons a w => exact cons_mem_language_closure.trans ⟨fun h => ⟨h, by simp⟩, fun h => h.1⟩

theorem Within.closure (hS : S.Within A) : (S.closure nullable).Within A := by
  refine ⟨hS.first, hS.last, ?_⟩
  rintro p q (hq | ⟨h1, h2⟩)
  · exact hS.follow p q hq
  · exact ⟨hS.last h1, hS.first h2⟩

theorem completes_optional : ∀ {p : π} {w : List α},
    S.optional.Completes label p w ↔ S.Completes label p w
  | _, [] => Iff.rfl
  | p, a :: w => by
    simp only [Completes, completes_optional]
    exact Iff.rfl

theorem language_optional : S.optional.language label = S.language label + 1 := by
  ext w
  rw [Language.mem_add, Language.mem_one]
  cases w with
  | nil => exact ⟨fun _ => .inr rfl, fun _ => trivial⟩
  | cons a w =>
    simp only [cons_mem_language, completes_optional, reduceCtorEq, or_false]
    exact Iff.rfl

theorem Within.optional (hS : S.Within A) : S.optional.Within A := ⟨hS.first, hS.last, hS.follow⟩

theorem Within.letter (p : π) : (letter p).Within {p} :=
  ⟨subset_rfl, subset_rfl, fun _ q hq => absurd hq (Set.notMem_empty q)⟩

end LocalSpec

end Icu.Lib
