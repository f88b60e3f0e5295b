import Icu.Pattern.Ranges

/-! # Surrogates that meet

Where the last lead surrogate and the first trail surrogate of a set follow each other in its
pattern, they are joined. The joined pair is no boundary of the set any more, so that the
pattern stands for another set.
-/

namespace Icu.Pattern

open Utf16 UnicodeSet Lib.RangeNotation Lib.InversionList

variable {ws : List Written} {w v : Written} {c : Int} {D : Set Int} {l : List Int}

/-- The set has lead and trail surrogates, and they are not in one range of three or more code
points. -/
def SurrogatesMeet (D : Set Int) : Prop :=
  (∃ c ∈ D, 0xd800 ≤ c ∧ c ≤ 0xdbff) ∧ (∃ c ∈ D, 0xdc00 ≤ c ∧ c ≤ 0xdfff) ∧
    ¬ (0xdbff ∈ D ∧ 0xdc00 ∈ D ∧ (0xdbfe ∈ D ∨ 0xdc01 ∈ D))

theorem join_eq_self (h : ws.IsChain fun u v => joins u v = false) : join ws = ws := by
  induction ws using join.induct with
  | case1 => rfl
  | case2 w => rfl
  | case3 w v ws hjoin ih =>
    rw [(List.isChain_cons_cons.mp h).1] at hjoin
    cases hjoin
  | case4 w v ws hjoin ih => rw [join, if_neg hjoin, ih (List.isChain_cons_cons.mp h).2]

theorem joins_of_not_trail (h : u16IsTrail v.c = false) : joins w v = false := by
  rw [joins, h, Bool.and_false]

theorem join_cons_of_joins (h : joins v w = true) (ws : List Written) :
    join (v :: w :: ws) = ⟨v.hyphen, v.text ++ w.text, u16GetSupplementary v.c w.c⟩ :: join ws := by
  rw [join, if_pos h]

theorem join_cons_of_not (h : joins v w = false) (ws : List Written) :
    join (v :: w :: ws) = v :: join (w :: ws) := by
  rw [join, h, if_neg Bool.false_ne_true]

theorem join_append (hjoin : joins v w = true) (hv : u16IsTrail v.c = false)
    (xs ys : List Written) : join (xs ++ v :: w :: ys) =
      join xs ++ ⟨v.hyphen, v.text ++ w.text, u16GetSupplementary v.c w.c⟩ :: join ys := by
  induction xs using join.induct with
  | case1 => exact join_cons_of_joins hjoin ys
  | case2 x =>
    rw [List.singleton_append, join_cons_of_not (joins_of_not_trail hv), join_cons_of_joins hjoin]
    rfl
  | case3 x x' xs hx ih =>
    rw [List.cons_append, List.cons_append, join_cons_of_joins hx, ih, join_cons_of_joins hx,
      List.cons_append]
  | case4 x x' xs hx ih =>
    rw [Bool.not_eq_true] at hx
    rw [List.cons_append] at ih
    rw [List.cons_append, List.cons_append, join_cons_of_not hx, ih, join_cons_of_not hx,
      List.cons_append]

theorem mem_join {escape : Bool} (h : AsWritten escape ws)
    (hw : w ∈ join ws) : w ∈ ws ∨ 0x10000 ≤ w.c := by
  induction ws using join.induct with
  | case1 => cases hw
  | case2 v => exact Or.inl hw
  | case3 v v' ws hjoin ih =>
    obtain ⟨hv, htail⟩ := List.forall_mem_cons.mp h
    obtain ⟨hv', htail⟩ := List.forall_mem_cons.mp htail
    rw [join, if_pos hjoin] at hw
    rcases List.mem_cons.mp hw with rfl | hw
    · obtain ⟨hlead, -, htrail⟩ := joins_ranges hjoin hv.2 hv'.2
      exact Or.inr (u16GetSupplementary_bounds hlead htrail).1
    rcases ih htail hw with hw | hw
    · exact Or.inl (List.mem_cons_of_mem _ (List.mem_cons_of_mem _ hw))
    · exact Or.inr hw
  | case4 v v' ws hjoin ih =>
    rw [join, if_neg hjoin] at hw
    rcases List.mem_cons.mp hw with rfl | hw
    · exact Or.inl List.mem_cons_self
    rcases ih (List.forall_mem_cons.mp h).2 hw with hw | hw
    · exact Or.inl (List.mem_cons_of_mem _ hw)
    · exact Or.inr hw

theorem head_join (h : (join ws).head? = some w) :
    ∃ v, ws.head? = some v ∧ w.hyphen = v.hyphen := by
  match ws with
  | [] => cases h
  | [v] => exact ⟨w, h, rfl⟩
  | v :: v' :: ws =>
    rw [join] at h
    split at h
    · cases h
      exact ⟨v, rfl, rfl⟩
    · cases h
      exact ⟨w, rfl, rfl⟩

theorem mem_values (h : c ∈ State.values (itemsOfAll ws)) : ∃ w ∈ ws, c = w.c := by
  obtain ⟨w, hw, hc⟩ := List.mem_flatMap.mp h
  refine ⟨w, hw, ?_⟩
  rw [Written.items] at hc
  split at hc
  · simpa using hc
  · simpa using hc

def start : State Int := ⟨∅, none, false⟩

theorem total_start : start.total = ∅ := by
  ext c
  simp [State.total, start]

theorem bounded_run {a : State Int} (h : start.run (itemsOfAll ws) = some a) :
    State.Bounded (State.values (itemsOfAll ws)) a.total :=
  (State.Within.run ⟨State.bounded_empty _, fun c hc => by cases hc⟩ subset_rfl h).total

theorem mem_of_stop (h : State.Bounded (State.values (itemsOfAll ws)) D)
    (hc : c ∈ D) (hnext : c + 1 ∉ D) : ∃ w ∈ ws, c = w.c := by
  obtain ⟨v, hv, hle, hlt⟩ := h.stop hc hnext (by omega)
  rw [show c = v by omega]
  exact mem_values hv

theorem mem_of_start (h : State.Bounded (State.values (itemsOfAll ws)) D)
    (hc : c ∈ D) (hprev : c - 1 ∉ D) : ∃ w ∈ ws, c = w.c := by
  obtain ⟨v, hv, hlt, hle⟩ := h.start hprev hc (by omega)
  rw [show c = v by omega]
  exact mem_values hv

/-! ## When surrogates are joined -/

/-- Characters that follow each other are joined only where surrogates meet. -/
theorem joins_of_neighbours (hD : ¬ SurrogatesMeet D) {u : Written}
    (h : Neighbours D u v) (hu : u.c ≤ 0x10ffff) (hv : v.c ≤ 0x10ffff) : joins u v = false := by
  rw [← Bool.not_eq_true]
  intro hjoin
  obtain ⟨hlead, hhyphen, htrail⟩ := joins_ranges hjoin hu hv
  refine hD ⟨⟨u.c, h.left, by omega⟩, ⟨v.c, h.right, by omega⟩, ?_⟩
  rintro ⟨hlast, hfirst, hmore⟩
  rcases h.plain hhyphen with ⟨hnext, hprev, hbehind⟩ | ⟨hnext, hgap⟩
  · rw [show ((u.c : Int) - 1) = 0xdbfe by omega] at hprev
    rw [show ((v.c : Int) + 1) = 0xdc01 by omega] at hbehind
    exact hmore.elim hprev hbehind
  · by_cases hu : u.c = 0xdbff
    · exact hgap 0xdc00 (by omega) (by omega) hfirst
    · exact hgap 0xdbff (by omega) (by omega) hlast

theorem isChain_listed (escape : Bool) (h : Boundaries l) :
    (listWritten escape l).IsChain (Neighbours (listed l)) :=
  @isChain_listWritten escape l h (listed l) (-1) (fun z hz => by have := h.nonneg z hz; omega)
    fun _ _ => Iff.rfl

theorem pairwise_listWritten (escape : Bool) (h : Boundaries l) :
    (listWritten escape l).Pairwise fun u v => u.c < v.c :=
  ((isChain_listed escape h).imp fun _ _ h => h.lt).pairwise

/-- Where surrogates meet, the last lead surrogate is a boundary of the set, and it is joined with
the character behind it. -/
theorem exists_joins {escape : Bool} {l : List Int} (h : Boundaries l)
    (hD : SurrogatesMeet (listed l)) :
    ∃ xs v w ys, listWritten escape l = xs ++ v :: w :: ys ∧ joins v w = true ∧
      (v.c : Int) ∈ listed l ∧ ((v.c + 1 : Int) ∉ listed l ∨ (v.c - 1 : Int) ∉ listed l) := by
  obtain ⟨⟨c, hc, hclead⟩, ⟨d, hd, hdtrail⟩, hnot⟩ := hD
  obtain ⟨e, ⟨heD, helead⟩, hemax⟩ := Int.exists_greatest_of_bdd
    (P := fun z => z ∈ listed l ∧ 0xd800 ≤ z ∧ z ≤ 0xdbff) ⟨0xdbff, fun z hz => hz.2.2⟩ ⟨c, hc,
      hclead⟩
  obtain ⟨t, ⟨htD, httrail⟩, htmin⟩ := Int.exists_least_of_bdd
    (P := fun z => z ∈ listed l ∧ 0xdc00 ≤ z ∧ z ≤ 0xdfff) ⟨0xdc00, fun z hz => hz.2.1⟩ ⟨d, hd,
      hdtrail⟩
  have hgap : ∀ z, e < z → z < t → z ∉ listed l := by
    intro z hez hzt hz
    by_cases hlead : z ≤ 0xdbff
    · have := hemax z ⟨hz, by omega⟩
      omega
    · have := htmin z ⟨hz, by omega⟩
      omega
  obtain ⟨a, hrun, -, htotal⟩ := run_listWritten escape h (show start.hyphen = false from rfl)
  have hbounded := bounded_run hrun
  rw [htotal, total_start, Set.empty_union] at hbounded
  -- Both are boundaries, so both are written.
  obtain ⟨hbound, ⟨v, hv, hve⟩, ⟨w, hw, hwt⟩⟩ :
      (e + 1 ∉ listed l ∨ e - 1 ∉ listed l) ∧ (∃ v ∈ listWritten escape l, e = v.c) ∧
        ∃ w ∈ listWritten escape l, t = w.c := by
    by_cases hadjacent : e + 1 = t
    · have he : e = 0xdbff := by omega
      have ht : t = 0xdc00 := by omega
      have hprev : e - 1 ∉ listed l := fun hmem =>
        hnot ⟨he ▸ heD, ht ▸ htD, Or.inl (by rw [he] at hmem; exact hmem)⟩
      have hbehind : t + 1 ∉ listed l := fun hmem =>
        hnot ⟨he ▸ heD, ht ▸ htD, Or.inr (by rw [ht] at hmem; exact hmem)⟩
      exact ⟨Or.inr hprev, mem_of_start hbounded heD hprev, mem_of_stop hbounded htD hbehind⟩
    · have hnext := hgap (e + 1) (by omega) (by omega)
      have hprev := hgap (t - 1) (by omega) (by omega)
      exact ⟨Or.inl hnext, mem_of_stop hbounded heD hnext, mem_of_start hbounded htD hprev⟩
  have hchain := isChain_listed escape h
  have hpair := pairwise_listWritten escape h
  obtain ⟨xs, zs, hsplit⟩ := List.append_of_mem hv
  rw [hsplit, List.pairwise_append, List.pairwise_cons] at hpair
  have hwzs : w ∈ zs := by
    rw [hsplit, List.mem_append, List.mem_cons] at hw
    rcases hw with hw | rfl | hw
    · have := hpair.2.2 w hw v List.mem_cons_self
      omega
    · omega
    · exact hw
  cases zs with
  | nil => cases hwzs
  | cons w' ys =>
    rw [hsplit, List.isChain_append_cons_cons] at hchain
    have hnear := hchain.2.1
    have hlt := hnear.lt
    have hle : w'.c ≤ w.c := by
      rcases List.mem_cons.mp hwzs with rfl | hmem
      · exact Nat.le_refl _
      · exact Nat.le_of_lt ((List.pairwise_cons.mp hpair.2.1.2).1 w hmem)
    have ht : (w'.c : Int) = t := by
      by_contra hne
      exact hgap w'.c (by omega) (by omega) hnear.right
    have hhyphen : w'.hyphen = false := by
      rw [← Bool.not_eq_true]
      intro hhyphen
      obtain ⟨hroom, hmem⟩ := hnear.hyphen hhyphen
      exact hgap (v.c + 1) (by omega) (by omega) hmem
    refine ⟨xs, v, w', ys, hsplit, ?_, hve ▸ heD, hve ▸ hbound⟩
    rw [joins, hhyphen, (u16IsLead_iff (by omega)).mpr (by omega),
      (u16IsTrail_iff (by omega)).mpr (by omega)]
    rfl

/-- The characters that are read stand for the listed code points, unless surrogates meet. -/
theorem run_join_iff (escape : Bool) (h : Boundaries l) :
    (∃ a, start.run (itemsOfAll (join (listWritten escape l))) = some a ∧ a.total = listed l) ↔
      ¬ SurrogatesMeet (listed l) := by
  have hwritten := asWritten_listWritten escape h
  constructor
  · rintro ⟨a, hrun, htotal⟩ hmeet
    obtain ⟨xs, v, w, ys, hsplit, hjoin, hv, hbound⟩ := @exists_joins escape l h hmeet
    have hbounded := bounded_run hrun
    rw [htotal] at hbounded
    obtain ⟨u, hu, huv⟩ : ∃ u ∈ join (listWritten escape l), (v.c : Int) = u.c := by
      rcases hbound with hnext | hprev
      · exact mem_of_stop hbounded hv hnext
      · exact mem_of_start hbounded hv hprev
    rw [hsplit] at hwritten
    have hws := List.forall_mem_append.mp hwritten
    have hvs := List.forall_mem_cons.mp hws.2
    have hys := List.forall_mem_cons.mp hvs.2
    obtain ⟨hlead, -, htrail⟩ := joins_ranges hjoin hvs.1.2 hys.1.2
    have hnot : u16IsTrail v.c = false := by
      rw [← Bool.not_eq_true, u16IsTrail_iff (by omega)]
      omega
    have hpair := pairwise_listWritten escape h
    rw [hsplit, List.pairwise_append, List.pairwise_cons] at hpair
    rw [hsplit, join_append hjoin hnot, List.mem_append, List.mem_cons] at hu
    have hsup := u16GetSupplementary_bounds hlead htrail
    rcases hu with hu | rfl | hu
    · rcases mem_join hws.1 hu with hu | hu
      · have := hpair.2.2 u hu v List.mem_cons_self
        omega
      · omega
    · dsimp only at huv
      omega
    · rcases mem_join hys.2 hu with hu | hu
      · have := hpair.2.1.1 u (List.mem_cons_of_mem _ hu)
        omega
      · omega
  · intro hmeet
    obtain ⟨a, hrun, -, htotal⟩ := run_listWritten escape h (show start.hyphen = false from rfl)
    have hself : join (listWritten escape l) = listWritten escape l := by
      refine join_eq_self ((isChain_listed escape h).imp_of_mem_imp fun u v hu hv hnear => ?_)
      exact joins_of_neighbours hmeet hnear (hwritten u hu).2 (hwritten v hv).2
    rw [total_start, Set.empty_union] at htotal
    rw [hself]
    exact ⟨a, hrun, htotal⟩

end Icu.Pattern
