import Mathlib.Data.List.Perm.Basic

/-! # Stable sorting

What it means that a list is another one in a stable order, for a relation that need not tell all
items apart, and how insertion and partition get there.
-/

namespace Icu.Lib

variable {α : Type} {le : α → α → Prop} [DecidableRel le]

def alike (le : α → α → Prop) [DecidableRel le] (a b : α) : Bool :=
  decide (le a b) && decide (le b a)

/-- `ys` has the items of `xs` in order, and items that are alike have kept their order. -/
structure StableSort (le : α → α → Prop) [DecidableRel le] (xs ys : List α) : Prop where
  sorted : ys.Pairwise le
  perm : ys.Perm xs
  stable : ∀ a, ys.filter (alike le a) = xs.filter (alike le a)

theorem StableSort.singleton (a : α) : StableSort le [a] [a] :=
  ⟨List.pairwise_singleton _ _, List.Perm.refl _, fun _ => rfl⟩

/-- A new item is inserted behind all items that are not greater. -/
theorem StableSort.insert (htrans : ∀ {a b c : α}, le a b → le b c → le a c)
    {xs below above : List α}
    {v : α} (h : StableSort le xs (below ++ above)) (hbelow : ∀ b ∈ below, le b v)
    (habove : ∀ b ∈ above, le v b ∧ ¬ le b v) :
    StableSort le (xs ++ [v]) (below ++ v :: above) where
  sorted := by
    have hsorted := h.sorted
    rw [List.pairwise_append] at hsorted ⊢
    refine ⟨hsorted.1, ?_, ?_⟩
    · rw [List.pairwise_cons]
      exact ⟨fun b hb => (habove b hb).1, hsorted.2.1⟩
    intro b hb c hc
    obtain rfl | hc := List.mem_cons.mp hc
    · exact hbelow b hb
    · exact hsorted.2.2 b hb c hc
  perm := by
    have hmiddle : (below ++ v :: above).Perm (v :: (below ++ above)) := List.perm_middle
    have hlast : (v :: xs).Perm (xs ++ [v]) := (List.perm_append_singleton v xs).symm
    exact hmiddle.trans ((h.perm.cons v).trans hlast)
  stable := by
    intro a
    have hfilter := h.stable a
    rw [List.filter_append] at hfilter
    rw [List.filter_append, List.filter_append, List.filter_cons, ← hfilter, List.filter_cons]
    by_cases halike : alike le a v = true
    · have hnone : above.filter (alike le a) = [] := by
        rw [List.filter_eq_nil_iff]
        intro b hb hb'
        unfold alike at halike hb'
        simp only [Bool.and_eq_true, decide_eq_true_eq] at halike hb'
        exact (habove b hb).2 (htrans hb'.2 halike.1)
      rw [if_pos halike, if_pos halike, hnone]
      simp
    · rw [if_neg halike, if_neg halike]
      simp

omit [DecidableRel le] in
theorem pairwise_partition (htrans : ∀ {a b c : α}, le a b → le b c → le a c)
    {below middle above : List α} {x : α} (hbelow : below.Pairwise le) (habove : above.Pairwise le)
    (hless : ∀ b ∈ below, le b x) (hmiddle : ∀ b ∈ middle, le b x ∧ le x b)
    (hgreater : ∀ b ∈ above, le x b) : (below ++ middle ++ above).Pairwise le := by
  have hall : middle.Pairwise le := List.pairwise_of_forall_mem_list
    fun a ha b hb => htrans (hmiddle a ha).1 (hmiddle b hb).2
  rw [List.pairwise_append, List.pairwise_append]
  refine ⟨⟨hbelow, hall, fun a ha b hb => htrans (hless a ha) (hmiddle b hb).2⟩, habove, ?_⟩
  intro a ha b hb
  obtain ha | ha := List.mem_append.mp ha
  · exact htrans (hless a ha) (hgreater b hb)
  · exact htrans (hmiddle a ha).1 (hgreater b hb)

end Icu.Lib
