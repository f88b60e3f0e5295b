import Icu.Rbbi.SetRanges

/-! # The categories of the set builder

The groups are the classes of code points that are in the same sets, and the expression for a set
has each of its groups once.
-/

namespace Icu.Rbbi

open UnicodeSet Lib Lib.InversionList

variable {rl : List RangeDescriptor}

namespace UsetNode

def Contains (usetNode : UsetNode) (c : Int) : Prop := covers usetNode.fInputSet.list c = true

def leafValues (usetNode : UsetNode) : List Nat :=
  (usetNode.fLeftChild.map SymbolNode.leafValues).getD []

@[simp] theorem leafValues_addValToSet (usetNode : UsetNode) (val : Nat) :
    (usetNode.addValToSet val).leafValues = usetNode.leafValues ++ [val % 2 ^ 16] := by
  rw [addValToSet, leafValues, leafValues]
  cases usetNode.fLeftChild <;> rfl

@[simp] theorem fParent_addValToSet (usetNode : UsetNode) (val : Nat) :
    (usetNode.addValToSet val).fParent = usetNode.fParent := by
  rw [addValToSet]
  cases usetNode.fLeftChild <;> rfl

@[simp] theorem fInputSet_addValToSet (usetNode : UsetNode) (val : Nat) :
    (usetNode.addValToSet val).fInputSet = usetNode.fInputSet := by
  rw [addValToSet]
  cases usetNode.fLeftChild <;> rfl

theorem leafValues_addStrings (usetNode : UsetNode) : usetNode.addStrings.leafValues =
    usetNode.leafValues ++ (if eofString ∈ usetNode.fInputSet.strings then [1] else []) ++
      if bofString ∈ usetNode.fInputSet.strings then [2] else [] := by
  rw [addStrings]
  by_cases heof : eofString ∈ usetNode.fInputSet.strings <;>
    by_cases hbof : bofString ∈ usetNode.fInputSet.strings <;> simp [heof, hbof]

theorem fInputSet_addStrings (usetNode : UsetNode) :
    usetNode.addStrings.fInputSet = usetNode.fInputSet := by
  rw [addStrings]
  by_cases heof : eofString ∈ usetNode.fInputSet.strings <;>
    by_cases hbof : bofString ∈ usetNode.fInputSet.strings <;> simp [heof, hbof]

end UsetNode

/-! ## Numbers and flags -/

namespace RangeDescriptor

def category (r : RangeDescriptor) : Nat := r.fNum &&& 0xbfff

def InDictionary (fUSetNodes : List UsetNode) (r : RangeDescriptor) : Prop :=
  ∃ ix ∈ r.fIncludesSets, ∃ usetNode, fUSetNodes[ix]? = some usetNode ∧
    usetNode.setName = "dictionary"

/-- The number `n` with the flag of the range. -/
structure HasNumber (fUSetNodes : List UsetNode) (r : RangeDescriptor) (n : Nat) : Prop where
  category : r.category = n
  flag : r.fNum.testBit 14 = true ↔ r.InDictionary fUSetNodes
  ne_zero : r.fNum ≠ 0
  eq : r.fNum = n ∨ r.fNum = 2 ^ 14 + n

theorem and_clear {n : Nat} (h : n < 2 ^ 15) : n &&& 0xbfff = n % 2 ^ 14 := by
  have hlow : n = n &&& (2 ^ 15 - 1) := (Nat.and_two_pow_sub_one_of_lt_two_pow h).symm
  rw [hlow, Nat.and_assoc, show (2 ^ 15 - 1) &&& 0xbfff = 2 ^ 14 - 1 from rfl,
    Nat.and_two_pow_sub_one_eq_mod, ← hlow]

theorem hasNumber_setDictionaryFlag {fUSetNodes : List UsetNode} {r : RangeDescriptor}
    (hpos : r.fNum ≠ 0) (hlimit : r.fNum < 2 ^ 14) :
    (r.setDictionaryFlag fUSetNodes).HasNumber fUSetNodes r.fNum := by
  have hany : (r.fIncludesSets.any fun ix => fUSetNodes[ix]?.any fun usetNode =>
      usetNode.setName == "dictionary") = true ↔ r.InDictionary fUSetNodes := by
    simp [InDictionary, List.any_eq_true, Option.any_eq_true]
  rw [setDictionaryFlag]
  split
  · next h =>
    have hor : r.fNum ||| 0x4000 = 2 ^ 14 + r.fNum := by
      rw [Nat.or_comm]
      exact (Nat.two_pow_add_eq_or_of_lt hlimit 1).symm
    refine ⟨?_, ⟨fun _ => hany.mp h, fun _ => ?_⟩, ?_, .inr hor⟩
    · rw [category]
      dsimp only
      rw [hor, and_clear (by omega)]
      omega
    · dsimp only
      rw [Nat.testBit_or, show (0x4000 : Nat).testBit 14 = true from rfl, Bool.or_true]
    · dsimp only
      omega
  · next h =>
    refine ⟨?_, ⟨fun hbit => ?_, fun hdict => absurd (hany.mpr hdict) h⟩, hpos, .inl rfl⟩
    · rw [category, and_clear (by omega)]
      omega
    · rw [Nat.testBit_lt_two_pow hlimit] at hbit
      contradiction

@[simp] theorem fIncludesSets_setDictionaryFlag (fUSetNodes : List UsetNode) (r : RangeDescriptor) :
    (r.setDictionaryFlag fUSetNodes).fIncludesSets = r.fIncludesSets := by
  rw [setDictionaryFlag]
  split <;> rfl

@[simp] theorem fStartChar_setDictionaryFlag (fUSetNodes : List UsetNode) (r : RangeDescriptor) :
    (r.setDictionaryFlag fUSetNodes).fStartChar = r.fStartChar := by
  rw [setDictionaryFlag]
  split <;> rfl

@[simp] theorem fEndChar_setDictionaryFlag (fUSetNodes : List UsetNode) (r : RangeDescriptor) :
    (r.setDictionaryFlag fUSetNodes).fEndChar = r.fEndChar := by
  rw [setDictionaryFlag]
  split <;> rfl

def unnumbered (r : RangeDescriptor) : RangeDescriptor := { r with fNum := 0 }

end RangeDescriptor

namespace SetBuilder

variable {r : RangeDescriptor}

theorem getElem?_addValToSets {sets : List Nat} (hnodup : sets.Nodup) (val ix : Nat)
    (fUSetNodes : List UsetNode) : (addValToSets fUSetNodes sets val)[ix]? =
      if ix ∈ sets then fUSetNodes[ix]?.map fun usetNode => usetNode.addValToSet val
      else fUSetNodes[ix]? := by
  induction sets generalizing fUSetNodes with
  | nil => simp [addValToSets]
  | cons jx sets ih =>
    obtain ⟨hjx, hnodup⟩ := List.nodup_cons.mp hnodup
    have hstep : addValToSets fUSetNodes (jx :: sets) val =
        addValToSets (fUSetNodes.modify jx fun usetNode => usetNode.addValToSet val) sets val := rfl
    rw [hstep, ih hnodup, List.getElem?_modify]
    by_cases h : jx = ix
    · subst h
      simp [hjx]
    · simp [h, Ne.symm h]

structure Grouped (fUSetNodes : List UsetNode) (builder : SetBuilder) : Prop where
  number : ∀ r ∈ builder.fRangeList, ∃ n, 3 ≤ n ∧ n ≤ builder.fGroupCount + 2 ∧
    r.HasNumber fUSetNodes n
  same : ∀ r ∈ builder.fRangeList, ∀ s ∈ builder.fRangeList,
    r.category = s.category ↔ r.fIncludesSets = s.fIncludesSets
  nodes : ∀ ix : Nat, builder.fUSetNodes[ix]?.map (fun n => (n.fInputSet, n.fParent)) =
    fUSetNodes[ix]?.map fun n => (n.fInputSet, n.fParent)
  values : ∀ (ix : Nat) (n : UsetNode), builder.fUSetNodes[ix]? = some n → n.leafValues.Nodup ∧
    ∀ v, v ∈ n.leafValues ↔ ∃ r ∈ builder.fRangeList, ix ∈ r.fIncludesSets ∧ r.category = v

variable {fUSetNodes : List UsetNode} {builder : SetBuilder}

theorem Grouped.inDictionary_iff (h : Grouped fUSetNodes builder) (r : RangeDescriptor) :
    r.InDictionary builder.fUSetNodes ↔ r.InDictionary fUSetNodes := by
  refine exists_congr fun ix => and_congr_right fun _ => ?_
  have hnodes := h.nodes ix
  constructor
  · rintro ⟨n, hn, hname⟩
    rw [hn, Option.map_some, eq_comm, Option.map_eq_some_iff] at hnodes
    obtain ⟨m, hm, heq⟩ := hnodes
    rw [Prod.mk.injEq] at heq
    exact ⟨m, hm, by rw [← hname, UsetNode.setName, UsetNode.setName, heq.2]⟩
  · rintro ⟨n, hn, hname⟩
    rw [hn, Option.map_some, Option.map_eq_some_iff] at hnodes
    obtain ⟨m, hm, heq⟩ := hnodes
    rw [Prod.mk.injEq] at heq
    exact ⟨m, hm, by rw [← hname, UsetNode.setName, UsetNode.setName, heq.2]⟩

theorem Grouped.add_old (h : Grouped fUSetNodes builder) {s : RangeDescriptor}
    (hs : s ∈ builder.fRangeList) (hsets : r.fIncludesSets = s.fIncludesSets)
    (hnum : r.fNum = s.fNum) :
    Grouped fUSetNodes { builder with fRangeList := builder.fRangeList ++ [r] } := by
  have hcategory : r.category = s.category := by rw [RangeDescriptor.category, hnum]; rfl
  have hmem : ∀ t, t ∈ builder.fRangeList ++ [r] → ∃ u ∈ builder.fRangeList,
      t.category = u.category ∧ t.fIncludesSets = u.fIncludesSets ∧ t.fNum = u.fNum := by
    intro t ht
    rcases List.mem_append.mp ht with ht | ht
    · exact ⟨t, ht, rfl, rfl, rfl⟩
    rw [List.mem_singleton.mp ht]
    exact ⟨s, hs, hcategory, hsets, hnum⟩
  refine ⟨fun t ht => ?_, fun t ht u hu => ?_, h.nodes, fun ix n hn => ?_⟩
  · obtain ⟨u, hu, hcat, hset, hn⟩ := hmem t ht
    obtain ⟨n, hn3, hnle, hnumber⟩ := h.number u hu
    refine ⟨n, hn3, hnle, hcat.trans hnumber.category, ?_, hn ▸ hnumber.ne_zero,
      hn ▸ hnumber.eq⟩
    rw [hn, hnumber.flag, RangeDescriptor.InDictionary, RangeDescriptor.InDictionary, hset]
  · obtain ⟨t', ht', hcat, hset, -⟩ := hmem t ht
    obtain ⟨u', hu', hcat', hset', -⟩ := hmem u hu
    rw [hcat, hcat', hset, hset']
    exact h.same t' ht' u' hu'
  · obtain ⟨hnodup, hvalues⟩ := h.values ix n hn
    refine ⟨hnodup, fun v => ⟨fun hv => ?_, ?_⟩⟩
    · obtain ⟨t, ht, hix, hcat⟩ := (hvalues v).mp hv
      exact ⟨t, List.mem_append_left _ ht, hix, hcat⟩
    rintro ⟨t, ht, hix, hcat⟩
    obtain ⟨u, hu, hcat', hset, -⟩ := hmem t ht
    exact (hvalues v).mpr ⟨u, hu, hset ▸ hix, hcat' ▸ hcat⟩

theorem Grouped.add_new (h : Grouped fUSetNodes builder)
    (hnumber : r.HasNumber fUSetNodes (builder.fGroupCount + 3))
    (hcount : builder.fGroupCount + 3 < 2 ^ 14) (hnodup : r.fIncludesSets.Nodup)
    (hnew : ∀ s ∈ builder.fRangeList, r.fIncludesSets ≠ s.fIncludesSets) :
    Grouped fUSetNodes { builder with
      fUSetNodes := addValToSets builder.fUSetNodes r.fIncludesSets (builder.fGroupCount + 3)
      fRangeList := builder.fRangeList ++ [r]
      fGroupCount := builder.fGroupCount + 1 } := by
  have hother : ∀ s ∈ builder.fRangeList, s.category ≠ r.category := by
    intro s hs
    obtain ⟨n, -, hle, hn⟩ := h.number s hs
    rw [hn.category, hnumber.category]
    omega
  refine ⟨fun t ht => ?_, fun t ht u hu => ?_, fun ix => ?_, fun ix n hn => ?_⟩
  · rcases List.mem_append.mp ht with ht | ht
    · obtain ⟨n, hn3, hle, hn⟩ := h.number t ht
      exact ⟨n, hn3, Nat.le_succ_of_le hle, hn⟩
    · rw [List.mem_singleton.mp ht]
      exact ⟨builder.fGroupCount + 3, by omega, le_refl _, hnumber⟩
  · rcases List.mem_append.mp ht with ht | ht <;> rcases List.mem_append.mp hu with hu | hu
    · exact h.same t ht u hu
    · rw [List.mem_singleton.mp hu]
      exact iff_of_false (hother t ht) (hnew t ht).symm
    · rw [List.mem_singleton.mp ht]
      exact iff_of_false (hother u hu).symm (hnew u hu)
    · rw [List.mem_singleton.mp ht, List.mem_singleton.mp hu]
      exact iff_of_true rfl rfl
  · dsimp only
    rw [getElem?_addValToSets hnodup, ← h.nodes ix]
    split
    · rw [Option.map_map]
      congr 1
      funext n
      simp
    · rfl
  · dsimp only at hn ⊢
    rw [getElem?_addValToSets hnodup] at hn
    have hmem : ∀ v, (∃ s ∈ builder.fRangeList ++ [r], ix ∈ s.fIncludesSets ∧ s.category = v) ↔
        (∃ s ∈ builder.fRangeList, ix ∈ s.fIncludesSets ∧ s.category = v) ∨
          ix ∈ r.fIncludesSets ∧ builder.fGroupCount + 3 = v := by
      intro v
      simp only [List.mem_append, List.mem_singleton, or_and_right, exists_or, exists_eq_left,
        hnumber.category]
    by_cases hix : ix ∈ r.fIncludesSets
    · rw [if_pos hix, Option.map_eq_some_iff] at hn
      obtain ⟨m, hm, rfl⟩ := hn
      obtain ⟨hmnodup, hvalues⟩ := h.values ix m hm
      rw [UsetNode.leafValues_addValToSet, Nat.mod_eq_of_lt (by omega)]
      refine ⟨?_, fun v => ?_⟩
      · rw [List.nodup_append']
        refine ⟨hmnodup, List.nodup_singleton _, fun v hv hv' => ?_⟩
        obtain ⟨s, hs, -, hcat⟩ := (hvalues v).mp hv
        rw [List.mem_singleton.mp hv', ← hnumber.category] at hcat
        exact hother s hs hcat
      · rw [List.mem_append, hvalues, List.mem_singleton, hmem]
        simp [hix, eq_comm]
    · rw [if_neg hix] at hn
      obtain ⟨hmnodup, hvalues⟩ := h.values ix n hn
      refine ⟨hmnodup, fun v => ?_⟩
      rw [hvalues, hmem]
      simp [hix]

theorem fGroupCount_le_groupRange (builder : SetBuilder) (r : RangeDescriptor) :
    builder.fGroupCount ≤ (builder.groupRange r).fGroupCount := by
  rw [groupRange]
  split
  · exact Nat.le_succ _
  · exact le_refl _

theorem fGroupCount_le_foldl (rl : List RangeDescriptor) (builder : SetBuilder) :
    builder.fGroupCount ≤ (rl.foldl groupRange builder).fGroupCount := by
  induction rl generalizing builder with
  | nil => exact le_refl _
  | cons r rl ih => exact le_trans (fGroupCount_le_groupRange builder r) (ih _)

theorem Grouped.groupRange (h : Grouped fUSetNodes builder)
    (hnum : r.fNum = 0) (hnodup : r.fIncludesSets.Nodup)
    (hcount : (builder.groupRange r).fGroupCount + 2 < 2 ^ 14) :
    Grouped fUSetNodes (builder.groupRange r) ∧
      (builder.groupRange r).fRangeList.map RangeDescriptor.unnumbered =
        builder.fRangeList.map RangeDescriptor.unnumbered ++ [r.unnumbered] := by
  rw [SetBuilder.groupRange] at hcount ⊢
  cases hfind : builder.fRangeList.find? (fun s => r.fIncludesSets == s.fIncludesSets) with
  | some s =>
    have hs := List.mem_of_find?_eq_some hfind
    have hsets : r.fIncludesSets = s.fIncludesSets := by simpa using List.find?_some hfind
    obtain ⟨n, -, -, hn⟩ := h.number s hs
    simp only [Option.map_some, Option.getD_some, if_neg hn.ne_zero]
    exact ⟨h.add_old hs hsets rfl, by simp [RangeDescriptor.unnumbered]⟩
  | none =>
    rw [hfind] at hcount
    simp only [Option.map_none, Option.getD_none, hnum, if_true] at hcount ⊢
    have hnew : ∀ s ∈ builder.fRangeList, r.fIncludesSets ≠ s.fIncludesSets := by
      intro s hs
      simpa using List.find?_eq_none.mp hfind s hs
    have hflag := @RangeDescriptor.hasNumber_setDictionaryFlag builder.fUSetNodes
      { r with fNum := builder.fGroupCount + 3 } (Nat.succ_ne_zero _) (by simpa using hcount)
    refine ⟨h.add_new ⟨hflag.category, hflag.flag.trans (h.inDictionary_iff _), hflag.ne_zero,
      hflag.eq⟩
      (by simpa using hcount) (by simpa using hnodup) (by simpa using hnew), ?_⟩
    simp [RangeDescriptor.unnumbered]

theorem Grouped.foldl (h : Grouped fUSetNodes builder)
    (hnum : ∀ r ∈ rl, r.fNum = 0) (hnodup : ∀ r ∈ rl, r.fIncludesSets.Nodup)
    (hcount : (rl.foldl SetBuilder.groupRange builder).fGroupCount + 2 < 2 ^ 14) :
    Grouped fUSetNodes (rl.foldl SetBuilder.groupRange builder) ∧
      (rl.foldl SetBuilder.groupRange builder).fRangeList.map RangeDescriptor.unnumbered =
        builder.fRangeList.map RangeDescriptor.unnumbered ++ rl.map RangeDescriptor.unnumbered := by
  induction rl generalizing builder with
  | nil => exact ⟨h, by simp⟩
  | cons r rl ih =>
    rw [List.forall_mem_cons] at hnum hnodup
    have hle := fGroupCount_le_foldl rl (builder.groupRange r)
    rw [List.foldl_cons] at hcount ⊢
    obtain ⟨hstep, hlist⟩ := h.groupRange hnum.1 hnodup.1 (by omega)
    obtain ⟨hrun, hlist'⟩ := ih hstep hnum.2 hnodup.2 hcount
    exact ⟨hrun, by rw [hlist', hlist, List.append_assoc]; rfl⟩

/-! ## The builder -/

/-- What the set builder is for: its ranges are a partition into numbered groups, the classes of
code points that are in the same sets, and the values of a set are the numbers of its members. -/
structure Categorizes (fUSetNodes : List UsetNode) (builder : SetBuilder) : Prop where
  partition : IsPartition 0 builder.fRangeList
  number : ∀ r ∈ builder.fRangeList, 3 ≤ r.category ∧ r.category ≤ builder.fGroupCount + 2 ∧
    r.fNum = r.category + if r.fNum.testBit 14 then 0x4000 else 0
  same : ∀ r ∈ builder.fRangeList, ∀ s ∈ builder.fRangeList, ∀ c d, r.Contains c → s.Contains d →
    (r.category = s.category ↔ ∀ n ∈ fUSetNodes, n.Contains c ↔ n.Contains d)
  flag : ∀ r ∈ builder.fRangeList, r.fNum.testBit 14 = true ↔
    ∃ n ∈ fUSetNodes, n.setName = "dictionary" ∧ ∀ s ∈ builder.fRangeList,
      s.category = r.category → ∀ c, s.Contains c → n.Contains c
  values : ∀ (ix : Nat) (n : UsetNode), fUSetNodes[ix]? = some n → ∃ n',
    builder.fUSetNodes[ix]? = some n' ∧ n'.fInputSet = n.fInputSet ∧ n'.leafValues.Nodup ∧
    ∀ v, v ∈ n'.leafValues ↔
      (∃ r ∈ builder.fRangeList, ∃ c, r.Contains c ∧ n.Contains c ∧ r.category = v) ∨
      v = 1 ∧ UsetNode.eofString ∈ n.fInputSet.strings ∨
      v = 2 ∧ UsetNode.bofString ∈ n.fInputSet.strings

end SetBuilder

theorem nodup_setsOf (c : Int) (fUSetNodes : List UsetNode) (ni : Nat) :
    (setsOf c fUSetNodes ni).Nodup := by
  induction fUSetNodes generalizing ni with
  | nil => exact .nil
  | cons n fUSetNodes ih =>
    rw [setsOf]
    split
    · refine List.nodup_cons.mpr ⟨fun hmem => ?_, ih (ni + 1)⟩
      have := (mem_setsOf.mp hmem).1
      omega
    · exact ih (ni + 1)

theorem setsOf_eq_iff {c d : Int} {fUSetNodes : List UsetNode} {ni : Nat} :
    setsOf c fUSetNodes ni = setsOf d fUSetNodes ni ↔
      ∀ n ∈ fUSetNodes, n.Contains c ↔ n.Contains d := by
  constructor
  · intro h n hn
    obtain ⟨ix, hix⟩ := List.getElem?_of_mem hn
    have hmem : ∀ e, n.Contains e ↔ ix + ni ∈ setsOf e fUSetNodes ni := by
      intro e
      rw [mem_setsOf, Nat.add_sub_cancel, hix]
      simp [UsetNode.Contains]
    rw [hmem c, hmem d, h]
  intro h
  induction fUSetNodes generalizing ni with
  | nil => rfl
  | cons n fUSetNodes ih =>
    rw [List.forall_mem_cons] at h
    rw [setsOf, setsOf, ih h.2]
    congr 2
    exact propext h.1

theorem isPartition_map_unnumbered {start : Int} :
    IsPartition start (rl.map RangeDescriptor.unnumbered) ↔ IsPartition start rl := by
  induction rl generalizing start with
  | nil => exact Iff.rfl
  | cons r rl ih => exact and_congr_right fun _ => and_congr_right fun _ => ih

theorem setsAt_map_unnumbered (c : Int) (rl : List RangeDescriptor) :
    setsAt c (rl.map RangeDescriptor.unnumbered) = setsAt c rl := by
  induction rl with
  | nil => rfl
  | cons r rl ih =>
    rw [List.map_cons, setsAt, setsAt, ih]
    rfl

namespace SetBuilder

theorem exists_grouped {fUSetNodes : List UsetNode}
    (hfresh : ∀ n ∈ fUSetNodes, n.fLeftChild = none) :
    ∃ bound rl, (∀ fuel ≥ bound, build fuel fUSetNodes =
        some (groupRanges fUSetNodes rl).addStrings) ∧
      ((groupRanges fUSetNodes rl).fGroupCount < 0x3FF0 →
        Grouped fUSetNodes (groupRanges fUSetNodes rl) ∧
        IsPartition 0 (groupRanges fUSetNodes rl).fRangeList ∧
        ∀ r ∈ (groupRanges fUSetNodes rl).fRangeList, ∀ c, r.Contains c →
          r.fIncludesSets = setsOf c fUSetNodes 0) := by
  have hall : IsPartition 0 [⟨0, 0x10ffff, 0, []⟩] := ⟨rfl, by decide, rfl⟩
  obtain ⟨bound, rl, hrun, hpartition, hnum, hsets⟩ :=
    @divideRanges_spec fUSetNodes 0 _ hall (by simp) (by simp)
  have hsets' : ∀ c, 0 ≤ c → c < unicodesetHigh → setsAt c rl = setsOf c fUSetNodes 0 := by
    intro c hc hlimit
    rw [hsets c hc hlimit, setsAt, setsAt]
    simp
  have hrange : ∀ {rl : List RangeDescriptor}, IsPartition 0 rl →
      (∀ c, 0 ≤ c → c < unicodesetHigh → setsAt c rl = setsOf c fUSetNodes 0) →
      ∀ r ∈ rl, ∀ c, r.Contains c → r.fIncludesSets = setsOf c fUSetNodes 0 := by
    intro rl hpartition hsets r hr c hc
    have hstart := hpartition.start_le hr
    have hend := hpartition.end_lt hr
    rw [← hpartition.setsAt_eq hr hc]
    exact hsets c (le_trans hstart.1 hc.1) (lt_of_le_of_lt hc.2 hend)
  refine ⟨bound, rl, fun fuel hfuel => by rw [build, hrun fuel hfuel]; rfl, fun hcount => ?_⟩
  have hstart : Grouped fUSetNodes ⟨fUSetNodes, [], 0, false⟩ := by
    refine ⟨by simp, by simp, fun _ => rfl, fun ix n hn => ?_⟩
    have hnone := hfresh n (List.mem_of_getElem? hn)
    simp [UsetNode.leafValues, hnone]
  obtain ⟨hgrouped, hlist⟩ := hstart.foldl hnum (fun r hr => by
    have hle := (hpartition.start_le hr).2
    rw [hrange hpartition hsets' r hr r.fStartChar ⟨le_refl _, hle⟩]
    exact nodup_setsOf _ _ _) (Nat.lt_trans (Nat.add_lt_add_right hcount 2) (by decide))
  have hpartition' : IsPartition 0 (groupRanges fUSetNodes rl).fRangeList := by
    rw [← isPartition_map_unnumbered, groupRanges, hlist]
    exact isPartition_map_unnumbered.mpr hpartition
  refine ⟨hgrouped, hpartition', hrange hpartition' fun c hc hlimit => ?_⟩
  rw [← setsAt_map_unnumbered, groupRanges, hlist]
  exact (setsAt_map_unnumbered c rl).trans (hsets' c hc hlimit)

theorem Grouped.categorizes {fUSetNodes : List UsetNode} {builder : SetBuilder}
    (h : Grouped fUSetNodes builder) (hpartition : IsPartition 0 builder.fRangeList)
    (hsets : ∀ r ∈ builder.fRangeList, ∀ c, r.Contains c →
      r.fIncludesSets = setsOf c fUSetNodes 0) (hcount : builder.fGroupCount < 0x3FF0) :
    Categorizes fUSetNodes builder.addStrings := by
  have hself : ∀ r ∈ builder.fRangeList, r.Contains r.fStartChar :=
    fun r hr => ⟨le_refl _, (hpartition.start_le hr).2⟩
  have hmem : ∀ r ∈ builder.fRangeList, ∀ c, r.Contains c → ∀ (ix : Nat) (n : UsetNode),
      fUSetNodes[ix]? = some n → (ix ∈ r.fIncludesSets ↔ n.Contains c) := by
    intro r hr c hc ix n hn
    rw [hsets r hr c hc, mem_setsOf, Nat.sub_zero, hn]
    simp [UsetNode.Contains]
  refine ⟨hpartition, fun r hr => ?_, fun r hr s hs c d hc hd => ?_, fun r hr => ?_,
    fun ix n hn => ?_⟩
  · obtain ⟨n, hn, hle, hnumber⟩ := h.number r hr
    have hlimit : n < 2 ^ 14 := by omega
    rw [hnumber.category]
    refine ⟨hn, hle, ?_⟩
    rcases hnumber.eq with heq | heq
    · rw [heq, Nat.testBit_lt_two_pow hlimit]
      rfl
    · rw [heq, Nat.testBit_two_pow_add_eq, Nat.testBit_lt_two_pow hlimit, Nat.add_comm]
      rfl
  · rw [h.same r hr s hs, hsets r hr c hc, hsets s hs d hd, setsOf_eq_iff]
  · obtain ⟨n, -, -, hnumber⟩ := h.number r hr
    rw [hnumber.flag]
    constructor
    · rintro ⟨ix, hix, n, hn, hname⟩
      refine ⟨n, List.mem_of_getElem? hn, hname, fun s hs hcategory c hc => ?_⟩
      rw [← hmem s hs c hc ix n hn, (h.same s hs r hr).mp hcategory]
      exact hix
    rintro ⟨n, hn, hname, hall⟩
    obtain ⟨ix, hix⟩ := List.getElem?_of_mem hn
    refine ⟨ix, ?_, n, hix, hname⟩
    rw [hmem r hr _ (hself r hr) ix n hix]
    exact hall r hr rfl _ (hself r hr)
  · obtain ⟨m, hm, heq⟩ : ∃ m, builder.fUSetNodes[ix]? = some m ∧ m.fInputSet = n.fInputSet := by
      have hnodes := h.nodes ix
      rw [hn, Option.map_some, Option.map_eq_some_iff] at hnodes
      obtain ⟨m, hm, heq⟩ := hnodes
      exact ⟨m, hm, (Prod.mk.injEq _ _ _ _ ▸ heq).1⟩
    obtain ⟨hnodup, hvalues⟩ := h.values ix m hm
    have hvalues' : ∀ v, v ∈ m.leafValues ↔
        ∃ r ∈ builder.fRangeList, ∃ c, r.Contains c ∧ n.Contains c ∧ r.category = v := by
      intro v
      rw [hvalues]
      refine exists_congr fun r => and_congr_right fun hr => ?_
      constructor
      · rintro ⟨hix, hcategory⟩
        exact ⟨_, hself r hr, (hmem r hr _ (hself r hr) ix n hn).mp hix, hcategory⟩
      · rintro ⟨c, hc, hcontains, hcategory⟩
        exact ⟨(hmem r hr c hc ix n hn).mpr hcontains, hcategory⟩
    have hlarge : ∀ v ∈ m.leafValues, 3 ≤ v := by
      intro v hv
      obtain ⟨r, hr, -, rfl⟩ := (hvalues v).mp hv
      obtain ⟨k, hk, -, hnumber⟩ := h.number r hr
      rwa [hnumber.category]
    refine ⟨m.addStrings, by simp [addStrings, hm], by rw [m.fInputSet_addStrings, heq], ?_, ?_⟩
    · rw [m.leafValues_addStrings, List.append_assoc, List.nodup_append']
      refine ⟨hnodup, by split <;> split <;> decide, fun v hv hv' => ?_⟩
      have hle := hlarge v hv
      have hsmall : v = 1 ∨ v = 2 := by
        rcases List.mem_append.mp hv' with hv' | hv'
        · left
          split at hv' <;> simp_all
        · right
          split at hv' <;> simp_all
      omega
    · intro v
      rw [m.leafValues_addStrings, heq, List.mem_append, List.mem_append, hvalues' v, or_assoc]
      refine or_congr_right (or_congr ?_ ?_)
      · split <;> simp_all
      · split <;> simp_all

/-- The build comes to its end, and its categories are right if there is room for their numbers. -/
theorem build_categorizes {fUSetNodes : List UsetNode}
    (hfresh : ∀ n ∈ fUSetNodes, n.fLeftChild = none) :
    ∃ bound builder, (∀ fuel ≥ bound, build fuel fUSetNodes = some builder) ∧
      (builder.fGroupCount < 0x3FF0 → Categorizes fUSetNodes builder) := by
  obtain ⟨bound, rl, hrun, hgrouped⟩ := exists_grouped hfresh
  refine ⟨bound, _, hrun, fun hcount => ?_⟩
  obtain ⟨hgrouped, hpartition, hsets⟩ := hgrouped hcount
  exact hgrouped.categorizes hpartition hsets hcount

/-- The letters, where the first half of them are in the set named `dictionary`. -/
def letterNodes : List UsetNode :=
  [⟨⟨[0x61, 0x7b, 0x110000], [UsetNode.eofString], none, false⟩, none, none,
      by decide, by decide, rfl⟩,
    ⟨⟨[0x61, 0x6e, 0x110000], [], none, false⟩, some (some (.varRef "dictionary")), none,
      by decide, by decide, rfl⟩]

theorem build_categorizes_letters :
    ∃ bound builder, (∀ fuel ≥ bound, build fuel letterNodes = some builder) ∧
      (builder.fGroupCount < 0x3FF0 → Categorizes letterNodes builder) :=
  build_categorizes (by decide)

end SetBuilder

end Icu.Rbbi
