import Icu.ArraySort.Search
import Mathlib.Data.List.Induction

/-! # QuickSort

The partition keeps the items that are not greater than `x` before `left` and those that are not
less from `right` on. The scans need no sentinels: `x` is between `left` and `right` at first, and
later there are items on both sides.
-/

namespace Icu.ArraySort

open Lib

variable {α : Type} {cmp : α → α → Int} {x : α} {itemSize : Int}

theorem partItem_append {before after : List α} {w : α} {start limit : Nat} (hpos : 0 < itemSize)
    (hfits : Fits itemSize limit) (hstart : start ≤ before.length)
    (hlimit : before.length < limit) :
    partItem itemSize (before ++ w :: after) start limit before.length = some w := by
  unfold partItem
  rw [if_pos ⟨hstart, hlimit⟩, hfits.itemAt_eq hpos hlimit]
  simp

theorem scanLeft_spec {before less after : List α} {w : α} {start limit fuel : Nat}
    (hpos : 0 < itemSize) (hfits : Fits itemSize limit) (hstart : start ≤ before.length)
    (hlimit : before.length + less.length < limit)
    (hless : ∀ b ∈ less, cmp b x < 0) (hstop : ¬ cmp w x < 0) (hfuel : less.length < fuel) :
    scanLeft cmp itemSize (before ++ less ++ w :: after) start limit x fuel before.length =
      some (before.length + less.length) := by
  induction less generalizing before fuel with
  | nil =>
    obtain ⟨fuel, rfl⟩ := Nat.exists_eq_add_of_lt hfuel
    rw [List.append_nil, scanLeft, partItem_append hpos hfits hstart (by simpa using hlimit)]
    simp [hstop]
  | cons b less ih =>
    obtain ⟨fuel, rfl⟩ : ∃ n, fuel = n + 1 := ⟨fuel - 1, by omega⟩
    rw [List.length_cons] at hlimit hfuel
    have hrest := @ih (before ++ [b]) fuel (by simp; omega) (by simp; omega)
      (fun c hc => hless c (List.mem_cons_of_mem _ hc)) (by omega)
    rw [scanLeft, List.append_assoc, List.cons_append, partItem_append hpos hfits hstart (by omega)]
    simp only [Option.bind_eq_bind, Option.bind_some, if_pos (hless b (List.mem_cons_self ..))]
    simp only [List.append_assoc, List.length_append, List.length_singleton,
      List.cons_append, List.nil_append] at hrest
    rw [hrest, List.length_cons, Option.some.injEq]
    omega

theorem scanRight_spec {before greater after : List α} {w : α} {start limit : Nat}
    (hpos : 0 < itemSize) (hfits : Fits itemSize limit) (hstart : start ≤ before.length)
    (hlimit : before.length + 1 + greater.length ≤ limit)
    (hgreater : ∀ b ∈ greater, cmp x b < 0) (hstop : ¬ cmp x w < 0) :
    scanRight cmp itemSize (before ++ w :: greater ++ after) start limit x
      (before.length + 1 + greater.length) = some (before.length + 1) := by
  induction greater using List.reverseRecOn generalizing after with
  | nil =>
    rw [List.length_nil, Nat.add_zero, List.append_assoc, List.cons_append, scanRight,
      partItem_append hpos hfits hstart (by simp at hlimit; omega)]
    simp [hstop]
  | append_singleton greater b ih =>
    rw [List.length_append, List.length_singleton] at hlimit ⊢
    have hitem := @partItem_append _ itemSize (before ++ w :: greater) after b start limit hpos
      hfits
      (by simp; omega) (by simp; omega)
    have hrest := @ih (b :: after) (by omega)
      (fun c hc => hgreater c (List.mem_append_left _ hc))
    have hlist : before ++ w :: (greater ++ [b]) ++ after = before ++ w :: greater ++ b ::
      after := by
      simp
    have hindex : (before ++ w :: greater).length = before.length + 1 + greater.length := by
      simp
      omega
    rw [hindex] at hitem
    rw [hlist, ← Nat.add_assoc, scanRight, hitem]
    simp only [Option.bind_eq_bind, Option.bind_some]
    rw [if_pos (hgreater b (by simp)), hrest]

theorem exists_scans (cmp : α → α → Int) (x : α) (items : List α) :
    ∃ less between greater, items = less ++ between ++ greater ∧
      (∀ b ∈ less, cmp b x < 0) ∧ (∀ b ∈ greater, cmp x b < 0) ∧
      (∀ b, between.head? = some b → ¬ cmp b x < 0) ∧
      ∀ b, between.getLast? = some b → ¬ cmp x b < 0 := by
  have hright (rest : List α) : ∃ between greater, rest = between ++ greater ∧
      (∀ b ∈ greater, cmp x b < 0) ∧ ∀ b, between.getLast? = some b → ¬ cmp x b < 0 := by
    induction rest using List.reverseRecOn with
    | nil =>
      exact ⟨[], [], rfl, by simp, by simp⟩
    | append_singleton rest b ih =>
      by_cases hb : cmp x b < 0
      · obtain ⟨between, greater, rfl, hgreater, hlast⟩ := ih
        refine ⟨between, greater ++ [b], by simp, ?_, hlast⟩
        intro c hc
        obtain hc | hc := List.mem_append.mp hc
        · exact hgreater c hc
        · rwa [List.mem_singleton.mp hc]
      · exact ⟨rest ++ [b], [], by simp, by simp, by simpa using hb⟩
  induction items with
  | nil =>
    exact ⟨[], [], [], rfl, by simp, by simp, by simp, by simp⟩
  | cons a items ih =>
    by_cases ha : cmp a x < 0
    · obtain ⟨less, between, greater, rfl, hless, hrest⟩ := ih
      refine ⟨a :: less, between, greater, rfl, ?_, hrest⟩
      intro b hb
      obtain rfl | hb := List.mem_cons.mp hb
      · exact ha
      · exact hless b hb
    obtain ⟨between, greater, hsplit, hgreater, hlast⟩ := hright (a :: items)
    refine ⟨[], between, greater, hsplit, by simp, hgreater, ?_, hlast⟩
    intro b hb
    cases between with
    | nil =>
      simp at hb
    | cons c between =>
      rw [List.cons_append, List.cons.injEq] at hsplit
      rw [List.head?_cons, Option.some.injEq] at hb
      rwa [← hb, ← hsplit.1]

/-! ## The partition -/

theorem swap_append (before between after : List α) (u v : α) :
    ((before ++ u :: between ++ v :: after).set before.length v).set
      (before.length + 1 + between.length) u = before ++ v :: between ++ u :: after := by
  have hleft : (before ++ u :: between ++ v :: after).set before.length v =
      before ++ v :: between ++ v :: after := by
    simp
  have hright : before.length + 1 + between.length = (before ++ v :: between).length := by
    simp
    omega
  rw [hleft, hright, List.set_append_right _ _ (Nat.le_refl _), Nat.sub_self]
  rfl

theorem swap_perm (before between after : List α) (u v : α) :
    (before ++ v :: between ++ u :: after).Perm (before ++ u :: between ++ v :: after) := by
  classical
  rw [List.perm_iff_count]
  intro a
  simp only [List.count_append, List.count_cons]
  omega

theorem exchange_none (array : List α) (left : Nat) :
    exchange itemSize array left left = some (array, left, left) := by
  unfold exchange
  rw [if_neg (Nat.lt_irrefl left)]
  rfl

theorem exchange_one (array : List α) (left : Nat) :
    exchange itemSize array left (left + 1) = some (array, left + 1, left) := by
  unfold exchange
  rw [if_pos (Nat.lt_succ_self left), Nat.add_sub_cancel]
  simp

theorem exchange_swap {limit : Nat} (hpos : 0 < itemSize) (hfits : Fits itemSize limit)
    (before between after : List α) (u v : α)
    (hlimit : before.length + 1 + between.length < limit) :
    exchange itemSize (before ++ u :: between ++ v :: after) before.length
        (before.length + 1 + between.length + 1) =
      some (before ++ v :: between ++ u :: after, before.length + 1,
        before.length + 1 + between.length) := by
  have hu : itemAt itemSize (before ++ u :: between ++ v :: after) before.length = some u := by
    rw [hfits.itemAt_eq hpos (by omega)]
    simp
  have hv : itemAt itemSize (before ++ u :: between ++ v :: after)
      (before.length + 1 + between.length) = some v := by
    rw [hfits.itemAt_eq hpos hlimit]
    have hindex : before.length + 1 + between.length = (before ++ u :: between).length := by
      simp
      omega
    rw [hindex, List.getElem?_append_right (Nat.le_refl _), Nat.sub_self]
    rfl
  unfold exchange
  rw [if_pos (by omega), Nat.add_sub_cancel, if_pos (by omega)]
  simp only [hu, hv, Option.bind_eq_bind, Option.bind_some, Option.pure_def, swap_append]

/-- What the partition makes of items: no greater ones, ones like `x`, and no less ones. -/
structure Partitioned (cmp : α → α → Int) (x : α) (items below middle above : List α) : Prop where
  perm : (below ++ middle ++ above).Perm items
  below_le : ∀ b ∈ below, le cmp b x
  middle_alike : ∀ b ∈ middle, le cmp b x ∧ le cmp x b
  le_above : ∀ b ∈ above, le cmp x b
  below_length : below.length < items.length
  above_length : above.length < items.length

namespace Partitioned

variable {items below middle above below' above' : List α}

theorem perm_sorted (hpart : Partitioned cmp x items below middle above)
    (hbelow : below'.Perm below) (habove : above'.Perm above) :
    (below' ++ middle ++ above').Perm items :=
  ((hbelow.append_right middle).append habove).trans hpart.perm

theorem sorted (hpart : Partitioned cmp x items below middle above) (h : IsTotalPreorder cmp)
    (hbelow : below'.Perm below) (habove : above'.Perm above) (hsorted : below'.Pairwise (le cmp))
    (hsorted' : above'.Pairwise (le cmp)) : (below' ++ middle ++ above').Pairwise (le cmp) := by
  apply @pairwise_partition _ (le cmp) (fun hab hbc => h.le_trans hab hbc) _ _ _ x hsorted hsorted'
  · intro b hb
    exact hpart.below_le b (hbelow.mem_iff.mp hb)
  · exact hpart.middle_alike
  · intro b hb
    exact hpart.le_above b (habove.mem_iff.mp hb)

end Partitioned

section Partition

variable {A C below items above less between greater : List α} {fuel : Nat}

section

variable (h : IsTotalPreorder cmp)
include h

theorem exists_stop_left (habove : ∀ b ∈ above, le cmp x b)
    (hsentinel : x ∈ less ++ between ++ greater ∨ below ≠ [] ∧ above ≠ [])
    (hless : ∀ b ∈ less, cmp b x < 0) (hgreater : ∀ b ∈ greater, cmp x b < 0)
    (hfirst : ∀ b, between.head? = some b → ¬ cmp b x < 0) :
    ∃ w after, between ++ greater ++ above = w :: after ∧ ¬ cmp w x < 0 := by
  cases between with
  | cons w between =>
    exact ⟨w, between ++ greater ++ above, by simp, hfirst w rfl⟩
  | nil =>
    cases greater with
    | cons w greater =>
      have := (h.symm x w).mp (hgreater w (List.mem_cons_self ..))
      exact ⟨w, greater ++ above, by simp, by omega⟩
    | nil =>
      have hne : above ≠ [] := by
        obtain hmem | ⟨-, hne⟩ := hsentinel
        · have := hless x (by simpa using hmem)
          have := (h.symm x x).mp (by omega)
          omega
        · exact hne
      obtain ⟨w, after, rfl⟩ := List.exists_cons_of_ne_nil hne
      have := h.le_iff.mp (habove w (List.mem_cons_self ..))
      exact ⟨w, after, by simp, by omega⟩

theorem exists_stop_right (hbelow : ∀ b ∈ below, le cmp b x)
    (hsentinel : x ∈ less ++ between ++ greater ∨ below ≠ [] ∧ above ≠ [])
    (hless : ∀ b ∈ less, cmp b x < 0) (hgreater : ∀ b ∈ greater, cmp x b < 0)
    (hlast : ∀ b, between.getLast? = some b → ¬ cmp x b < 0) :
    ∃ before w, below ++ less ++ between = before ++ [w] ∧ ¬ cmp x w < 0 := by
  obtain rfl | ⟨between, w, rfl⟩ := List.eq_nil_or_concat' between
  · obtain rfl | ⟨less, w, rfl⟩ := List.eq_nil_or_concat' less
    · have hne : below ≠ [] := by
        obtain hmem | ⟨hne, -⟩ := hsentinel
        · have := hgreater x (by simpa using hmem)
          have := (h.symm x x).mp (by omega)
          omega
        · exact hne
      obtain ⟨before, w, rfl⟩ := (List.eq_nil_or_concat' below).resolve_left hne
      have := h.le_iff.mp (hbelow w (by simp))
      exact ⟨before, w, by simp, by omega⟩
    · have := (h.symm w x).mp (hless w (by simp))
      exact ⟨below ++ less, w, by simp, by omega⟩
  · exact ⟨below ++ less ++ between, w, by simp, hlast w (by simp)⟩

theorem scanLeft_stops (hpos : 0 < itemSize)
    (hfits : Fits itemSize (A.length + (below ++ (less ++ between ++ greater) ++ above).length))
    (habove : ∀ b ∈ above, le cmp x b)
    (hsentinel : x ∈ less ++ between ++ greater ∨ below ≠ [] ∧ above ≠ [])
    (hless : ∀ b ∈ less, cmp b x < 0) (hgreater : ∀ b ∈ greater, cmp x b < 0)
    (hfirst : ∀ b, between.head? = some b → ¬ cmp b x < 0) :
    scanLeft cmp itemSize (A ++ (below ++ (less ++ between ++ greater) ++ above) ++ C) A.length
        (A.length + (below ++ (less ++ between ++ greater) ++ above).length) x
        ((A ++ (below ++ (less ++ between ++ greater) ++ above) ++ C).length + 1)
        (A.length + below.length) =
      some (A.length + below.length + less.length) := by
  obtain ⟨w, after, hafter, hw⟩ := exists_stop_left h habove hsentinel hless hgreater hfirst
  have hlist : A ++ (below ++ (less ++ between ++ greater) ++ above) ++ C =
      (A ++ below) ++ less ++ w :: (after ++ C) := by
    rw [← List.cons_append, ← hafter]
    simp
  have hlength := congrArg List.length hafter
  simp only [List.length_append, List.length_cons] at hlength
  have hscan := @scanLeft_spec _ cmp x itemSize (A ++ below) less (after ++ C) w A.length
    (A.length + (below ++ (less ++ between ++ greater) ++ above).length)
    ((A ++ (below ++ (less ++ between ++ greater) ++ above) ++ C).length + 1) hpos hfits (by simp)
    (by simp; omega) hless hw (by simp; omega)
  have hleft : (A ++ below).length = A.length + below.length := List.length_append
  rw [← hlist, hleft] at hscan
  exact hscan

theorem scanRight_stops (hpos : 0 < itemSize)
    (hfits : Fits itemSize (A.length + (below ++ (less ++ between ++ greater) ++ above).length))
    (hbelow : ∀ b ∈ below, le cmp b x)
    (hsentinel : x ∈ less ++ between ++ greater ∨ below ≠ [] ∧ above ≠ [])
    (hless : ∀ b ∈ less, cmp b x < 0) (hgreater : ∀ b ∈ greater, cmp x b < 0)
    (hlast : ∀ b, between.getLast? = some b → ¬ cmp x b < 0) :
    scanRight cmp itemSize (A ++ (below ++ (less ++ between ++ greater) ++ above) ++ C) A.length
        (A.length + (below ++ (less ++ between ++ greater) ++ above).length) x
        (A.length + below.length + (less ++ between ++ greater).length) =
      some (A.length + below.length + less.length + between.length) := by
  obtain ⟨before, w, hbefore, hw⟩ := exists_stop_right h hbelow hsentinel hless hgreater hlast
  have hlist : A ++ (below ++ (less ++ between ++ greater) ++ above) ++ C =
      (A ++ before) ++ w :: greater ++ (above ++ C) := by
    have hwhole : (A ++ before) ++ w :: greater ++ (above ++ C) =
        A ++ (before ++ [w]) ++ greater ++ (above ++ C) := by simp
    rw [hwhole, ← hbefore]
    simp
  have hlength := congrArg List.length hbefore
  simp only [List.length_append, List.length_cons, List.length_nil] at hlength
  have hscan := @scanRight_spec _ cmp x itemSize (A ++ before) greater (above ++ C) w A.length
    (A.length + (below ++ (less ++ between ++ greater) ++ above).length) hpos hfits (by simp)
    (by simp; omega) hgreater hw
  rw [← hlist] at hscan
  have hright : A.length + below.length + (less ++ between ++ greater).length =
      (A ++ before).length + 1 + greater.length := by
    simp
    omega
  have hresult : A.length + below.length + less.length + between.length =
      (A ++ before).length + 1 := by
    simp
    omega
  rw [hright, hresult, hscan]

end

/-- The items where the two scans stop change places. -/
theorem exchange_part (hpos : 0 < itemSize) {u v : α}
    (hfits : Fits itemSize
      (A.length + (below ++ (less ++ u :: (between ++ [v]) ++ greater) ++ above).length)) :
    exchange itemSize (A ++ (below ++ (less ++ u :: (between ++ [v]) ++ greater) ++ above) ++ C)
        (A.length + below.length + less.length)
        (A.length + below.length + less.length + (u :: (between ++ [v])).length) =
      some (A ++ (below ++ less ++ [v] ++ between ++ (u :: (greater ++ above))) ++ C,
        A.length + below.length + less.length + 1,
        A.length + below.length + less.length + 1 + between.length) := by
  have hlist : A ++ (below ++ (less ++ u :: (between ++ [v]) ++ greater) ++ above) ++ C =
      (A ++ below ++ less) ++ u :: between ++ v :: (greater ++ above ++ C) := by
    simp
  have hlist' : (A ++ below ++ less) ++ v :: between ++ u :: (greater ++ above ++ C) =
      A ++ (below ++ less ++ [v] ++ between ++ (u :: (greater ++ above))) ++ C := by
    simp
  have hexchange := exchange_swap hpos hfits (A ++ below ++ less) between
    (greater ++ above ++ C) u v (by simp; omega)
  rw [← hlist, hlist'] at hexchange
  have hindex : (A ++ below ++ less).length = A.length + below.length + less.length := by
    simp [Nat.add_assoc]
  have hright : A.length + below.length + less.length + (u :: (between ++ [v])).length =
      A.length + below.length + less.length + 1 + between.length + 1 := by
    simp
    omega
  rw [hindex] at hexchange
  rw [hright]
  exact hexchange

theorem partitionLoop_spec (h : IsTotalPreorder cmp) (hpos : 0 < itemSize)
    (hfits : Fits itemSize (A.length + (below ++ items ++ above).length))
    (hbelow : ∀ b ∈ below, le cmp b x)
    (habove : ∀ b ∈ above, le cmp x b) (hsentinel : x ∈ items ∨ below ≠ [] ∧ above ≠ [])
    (hitems : items ≠ []) (hfuel : items.length ≤ fuel) :
    ∃ below' middle above', partitionLoop cmp itemSize A.length
          (A.length + (below ++ items ++ above).length) x fuel
          (A ++ (below ++ items ++ above) ++ C) (A.length + below.length)
          (A.length + below.length + items.length) =
        some (A ++ (below' ++ middle ++ above') ++ C, A.length + below'.length + middle.length,
          A.length + below'.length) ∧
      Partitioned cmp x (below ++ items ++ above) below' middle above' := by
  induction fuel generalizing below items above with
  | zero =>
    exact absurd (List.eq_nil_of_length_eq_zero (by omega)) hitems
  | succ fuel ih =>
    obtain ⟨less, between, greater, rfl, hless, hgreater, hfirst, hlast⟩ :=
      exists_scans cmp x items
    have hleft := scanLeft_stops (A := A) (C := C) h hpos hfits habove hsentinel hless hgreater
      hfirst
    have hright := scanRight_stops (A := A) (C := C) h hpos hfits hbelow hsentinel hless hgreater
      hlast
    have hbelow' : ∀ b ∈ below ++ less, le cmp b x :=
      List.forall_mem_append.mpr ⟨hbelow, fun b hb => Int.le_of_lt (hless b hb)⟩
    have habove' : ∀ b ∈ greater ++ above, le cmp x b :=
      List.forall_mem_append.mpr ⟨fun b hb => Int.le_of_lt (hgreater b hb), habove⟩
    cases between with
    | nil =>
      obtain ⟨w, after, hafter, -⟩ :=
        exists_stop_left h habove hsentinel hless hgreater hfirst
      obtain ⟨before, w', hbefore, -⟩ :=
        exists_stop_right h hbelow hsentinel hless hgreater hlast
      have hafter' := congrArg List.length hafter
      have hbefore' := congrArg List.length hbefore
      simp only [List.length_append, List.length_cons, List.length_nil] at hafter' hbefore'
      refine ⟨below ++ less, [], greater ++ above, ?_,
        ⟨by simp, hbelow', by simp, habove', by simp; omega, by simp; omega⟩⟩
      rw [List.length_nil, Nat.add_zero] at hright
      unfold partitionLoop
      simp only [hleft, hright, exchange_none, Option.bind_eq_bind, Option.bind_some]
      simp [Nat.add_assoc]
    | cons u between =>
      obtain rfl | ⟨between, v, rfl⟩ := List.eq_nil_or_concat' between
      · have hu : le cmp u x ∧ le cmp x u := by
          rw [h.le_iff, h.le_iff]
          exact ⟨Int.not_lt.mp (hlast u rfl), Int.not_lt.mp (hfirst u rfl)⟩
        refine ⟨below ++ less, [u], greater ++ above, ?_,
          ⟨by simp, hbelow', by simpa using hu, habove', by simp, by simp; omega⟩⟩
        rw [List.length_singleton] at hright
        unfold partitionLoop
        simp only [hleft, hright, exchange_one, Option.bind_eq_bind, Option.bind_some]
        rw [if_neg (by omega)]
        simp [Nat.add_assoc]
      have hu : le cmp x u := by
        rw [h.le_iff]
        exact Int.not_lt.mp (hfirst u rfl)
      have hv : le cmp v x := by
        rw [h.le_iff]
        exact Int.not_lt.mp (hlast v (by
          rw [← List.cons_append, List.getLast?_concat]))
      have hperm : (below ++ less ++ [v] ++ between ++ (u :: (greater ++ above))).Perm
          (below ++ (less ++ u :: (between ++ [v]) ++ greater) ++ above) := by
        have := swap_perm (below ++ less) between (greater ++ above) u v
        simpa using this
      have hbelow'' : ∀ b ∈ below ++ less ++ [v], le cmp b x :=
        List.forall_mem_append.mpr ⟨hbelow', List.forall_mem_singleton.mpr hv⟩
      have habove'' : ∀ b ∈ u :: (greater ++ above), le cmp x b :=
        List.forall_mem_cons.mpr ⟨hu, habove'⟩
      unfold partitionLoop
      simp only [hleft, hright, exchange_part hpos hfits, Option.bind_eq_bind, Option.bind_some]
      by_cases hbetween : between = []
      · subst hbetween
        refine ⟨below ++ less ++ [v], [], u :: (greater ++ above), ?_,
          ⟨by simpa using hperm, hbelow'', by simp, habove'', by simp, by simp; omega⟩⟩
        rw [if_neg (by simp)]
        simp [Nat.add_assoc]
      rw [← hperm.length_eq] at hfits
      obtain ⟨below', middle, above', hrest, hpart⟩ := ih hfits hbelow'' habove''
        (Or.inr ⟨by simp, by simp⟩) hbetween (by simp at hfuel; omega)
      refine ⟨below', middle, above', ?_, ⟨hpart.perm.trans hperm, hpart.below_le,
        hpart.middle_alike, hpart.le_above, ?_, ?_⟩⟩
      · have hpos := List.length_pos_iff.mpr hbetween
        have hlength := hperm.length_eq
        have hleft' : A.length + (below ++ less ++ [v]).length =
            A.length + below.length + less.length + 1 := by
          simp [Nat.add_assoc]
        rw [hlength, hleft'] at hrest
        rw [if_pos (by omega)]
        exact hrest
      · rw [← hperm.length_eq]
        exact hpart.below_length
      · rw [← hperm.length_eq]
        exact hpart.above_length

end Partition

/-- The items of a part are sorted, and the others stay. -/
def SortsPart (cmp : α → α → Int) (itemSize : Int)
    (sort : List α → Nat → Nat → Option (List α)) (items : List α) : Prop :=
  ∀ A C : List α, items ≠ [] → Fits itemSize (A.length + items.length) → ∃ items',
    sort (A ++ items ++ C) A.length (A.length + items.length) =
    some (A ++ items' ++ C) ∧ items'.Perm items ∧ items'.Pairwise (le cmp)

theorem sortsPart_of_lt {fuel : Nat} {items : List α}
    (hsorts : SortsPart cmp itemSize (subQuickSort cmp itemSize fuel) items) (A C : List α)
    (hfits : Fits itemSize (A.length + items.length)) :
    ∃ items', (if A.length + 1 < A.length + items.length then
        subQuickSort cmp itemSize fuel (A ++ items ++ C) A.length (A.length + items.length)
      else some (A ++ items ++ C)) = some (A ++ items' ++ C) ∧
      items'.Perm items ∧ items'.Pairwise (le cmp) := by
  by_cases hmore : A.length + 1 < A.length + items.length
  · rw [if_pos hmore]
    refine hsorts A C ?_ hfits
    rintro rfl
    rw [List.length_nil] at hmore
    omega
  rw [if_neg hmore]
  refine ⟨items, rfl, List.Perm.refl items, ?_⟩
  match items, hmore with
  | [], _ => exact List.Pairwise.nil
  | [a], _ => exact List.pairwise_singleton _ _
  | a :: b :: items, hmore => simp at hmore

theorem subQuickSort_spec (h : IsTotalPreorder cmp) (hpos : 0 < itemSize) (fuel : Nat)
    (items : List α) (hfuel : items.length < fuel) :
    SortsPart cmp itemSize (subQuickSort cmp itemSize fuel) items := by
  induction fuel generalizing items with
  | zero =>
    omega
  | succ fuel ih =>
    intro A C hne hfits
    have hdrop : ((A ++ items ++ C).drop A.length).take (A.length + items.length - A.length) =
        items := by
      simp
    have hsum := hfits.sum
    unfold subQuickSort minQSort at *
    have hstart : checked32 ((A.length : Int) + (9 : Nat)) = some ((A.length : Int) + (9 : Nat)) :=
      checked32_eq (by omega) (by omega)
    simp only [hstart, Option.bind_eq_bind, Option.bind_some]
    by_cases hsmall : (A.length : Int) + (9 : Nat) ≥ (A.length + items.length : Nat)
    · obtain ⟨items', hsort, hstable⟩ := doInsertionSort_spec h hpos items (hfits.mono (by omega))
      refine ⟨items', ?_, hstable.perm, hstable.sorted⟩
      have hoffset := hfits.checked hpos (show A.length < A.length + items.length by
        have := List.length_pos_of_ne_nil hne
        omega)
      rw [if_pos hsmall, hdrop]
      simp only [hoffset, hsort, Option.bind_some, Option.pure_def]
      simp
    have hmiddle := @Fits.middle_eq _ _ A.length (A.length + items.length) hfits
      (by unfold minQSort; omega) (Nat.le_refl _)
    have hhalf : (A.length + (A.length + items.length)) / 2 = A.length + items.length / 2 := by
      omega
    have hlt : items.length / 2 < items.length := by omega
    have hx : (A ++ items ++ C)[A.length + items.length / 2]? = some (items[items.length / 2]) := by
      rw [List.append_assoc, List.getElem?_append_right (by omega), Nat.add_sub_cancel_left,
        List.getElem?_append_left hlt, List.getElem?_eq_getElem hlt]
    obtain ⟨below, middle, above, hpartition, hpart⟩ := @partitionLoop_spec
      _ cmp (items[items.length / 2]) itemSize A C [] items [] items.length h hpos
        (by simpa using hfits)
      (by simp) (by simp) (Or.inl (List.getElem_mem hlt)) hne (Nat.le_refl _)
    simp only [List.nil_append, List.append_nil, List.length_nil, Nat.add_zero] at hpartition hpart
    have hitem : itemAt itemSize (A ++ items ++ C) ((A.length + (A.length + items.length)) / 2) =
        some (items[items.length / 2]) := by
      rw [hfits.itemAt_eq hpos (by omega), hhalf, hx]
    rw [if_neg hsmall, Nat.add_sub_cancel_left]
    simp only [hmiddle, hitem, hpartition, Option.bind_some]
    have hbelow := sortsPart_of_lt (ih below (by have := hpart.below_length; omega))
    have habove := sortsPart_of_lt (ih above (by have := hpart.above_length; omega))
    have hlimit : A.length + items.length =
        A.length + below.length + middle.length + above.length := by
      have := hpart.perm.length_eq
      simp only [List.length_append] at this
      omega
    split
    · obtain ⟨below', hfirst, hperm, hsorted⟩ := hbelow A (middle ++ above ++ C)
        (hfits.mono (by omega))
      obtain ⟨above', hsecond, hperm', hsorted'⟩ := habove (A ++ below' ++ middle) C
        (hfits.mono (by simp [hperm.length_eq]; omega))
      refine ⟨below' ++ middle ++ above', ?_, hpart.perm_sorted hperm hperm',
        hpart.sorted h hperm hperm' hsorted hsorted'⟩
      have hlist : A ++ (below ++ middle ++ above) ++ C = A ++ below ++ (middle ++ above ++ C) := by
        simp
      have hlist' : A ++ below' ++ (middle ++ above ++ C) =
        A ++ below' ++ middle ++ above ++ C := by
        simp
      have hleft : (A ++ below' ++ middle).length = A.length + below.length + middle.length := by
        simp [hperm.length_eq, Nat.add_assoc]
      rw [hleft] at hsecond
      rw [hlimit, hlist, hfirst, Option.bind_some, hlist', hsecond]
      simp
    · obtain ⟨above', hfirst, hperm', hsorted'⟩ := habove (A ++ below ++ middle) C
        (hfits.mono (by simp; omega))
      obtain ⟨below', hsecond, hperm, hsorted⟩ := hbelow A (middle ++ above' ++ C)
        (hfits.mono (by omega))
      refine ⟨below' ++ middle ++ above', ?_, hpart.perm_sorted hperm hperm',
        hpart.sorted h hperm hperm' hsorted hsorted'⟩
      have hlist : A ++ (below ++ middle ++ above) ++ C = A ++ below ++ middle ++ above ++ C := by
        simp
      have hlist' : A ++ below ++ middle ++ above' ++ C =
        A ++ below ++ (middle ++ above' ++ C) := by
        simp
      have hleft : (A ++ below ++ middle).length = A.length + below.length + middle.length := by
        simp [Nat.add_assoc]
      rw [hleft] at hfirst
      rw [hlimit, hlist, hfirst, Option.bind_some, hlist', hsecond]
      simp

end Icu.ArraySort
