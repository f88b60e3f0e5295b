import Icu.UnicodeSet.SpanNot

/-! # Spans up to the first element

The set for code point spans may have more code points than it needs: where a span stops, the loop
looks whether an element is there. It must not have fewer, or a span would go over an element.
-/

namespace Icu.UnicodeSetStringSpan

open UnicodeSet Utf16 Lib Lib.InversionList Lib.Sweep Relation

variable {n m i : Nat} {t : List UInt16} {which : WhichNot}

/-! ## The loop -/

/-- An element starts at `i`: a code point, or a match of a string. -/
def Starts (strings : List (List UInt16)) (cp : Nat → Nat → Prop) (Match : List UInt16 → Nat → Prop)
    (i : Nat) : Prop :=
  (∃ j, cp i j) ∨ ∃ t ∈ strings, Match t i

/-- The first position where an element starts, or the end if there is none. -/
def IsFirst (P : Nat → Prop) (length n : Nat) : Prop :=
  IsLeast {i | P i} n ∨ n = length ∧ ∀ i, ¬ P i

theorem IsFirst.unique {P : Nat → Prop} {length : Nat} (hn : IsFirst P length n)
    (hm : IsFirst P length m) : n = m := by
  rcases hn with hn | ⟨rfl, hn⟩
  · rcases hm with hm | ⟨-, hm⟩
    · exact hn.unique hm
    · exact absurd hn.1 (hm n)
  · rcases hm with hm | ⟨rfl, -⟩
    · exact absurd hm.1 (hn m)
    · rfl

/-- The functions of the loop, for contained code points `cp` and the matches of strings. -/
structure NotDirection.Describes (d : NotDirection) (Bd : Nat → Prop) (cp : Nat → Nat → Prop)
    (Match : List UInt16 → Nat → Prop) (strings : List (List UInt16)) : Prop where
  zero : Bd 0
  bound : ∀ i, Starts strings cp Match i → Bd i
  lt_length : ∀ i, Starts strings cp Match i → i < d.length
  skip : ∀ pos, Bd pos → pos ≤ d.length → ∃ n, d.skip pos = some n ∧ Bd (pos + n) ∧
    pos + n ≤ d.length ∧ ∀ i, pos ≤ i → i < pos + n → ¬ Starts strings cp Match i
  one : ∀ pos, Bd pos → pos < d.length → ∃ n, d.one pos = some n ∧
    if n > 0 then ∃ j, cp pos j
    else n < 0 ∧ (∀ j, ¬ cp pos j) ∧ Bd (pos + (-n).toNat) ∧ pos + (-n).toNat ≤ d.length ∧
      ∀ i, pos < i → i < pos + (-n).toNat → ¬ Bd i
  isMatch : ∀ start s16, 0 < s16.length → start + s16.length ≤ d.length →
    ∃ found, d.isMatch start s16 = some found ∧ (found = true ↔ Match s16 start)
  match_le : ∀ s16 start, Match s16 start → start + s16.length ≤ d.length

section Loop

variable {d : NotDirection} {Bd : Nat → Prop} {cp : Nat → Nat → Prop}
variable {Match : List UInt16 → Nat → Prop} {strings : List (List UInt16 × Nat)} {pos : Nat}

theorem matchStrings_eq {texts : List (List UInt16)} (h : d.Describes Bd cp Match texts)
    (hpos : ∀ p ∈ strings, 0 < p.1.length) (hle : pos ≤ d.length) :
    ∃ found, d.matchStrings pos strings = some found ∧
      (found = true ↔ ∃ p ∈ strings, p.2 ≠ allCpContained ∧ Match p.1 pos) := by
  induction strings with
  | nil => exact ⟨false, rfl, by simp⟩
  | cons p strings ih =>
    obtain ⟨s16, spanLength⟩ := p
    obtain ⟨found, hfound, hiff⟩ := ih fun p hp => hpos p (List.mem_cons_of_mem _ hp)
    rw [NotDirection.matchStrings]
    by_cases hirrelevant : spanLength = allCpContained
    · refine ⟨found, by rw [if_pos hirrelevant, hfound], hiff.trans ?_⟩
      simp [hirrelevant]
    rw [if_neg hirrelevant]
    have hfirst : ∃ b, d.matchAt pos s16 = some b ∧ (b = true ↔ Match s16 pos) := by
      rw [NotDirection.matchAt]
      by_cases hfits : s16.length ≤ d.length - pos
      · rw [if_pos hfits]
        exact h.isMatch pos s16 (hpos _ (List.mem_cons_self ..)) (by omega)
      refine ⟨false, if_neg hfits, ⟨fun hf => absurd hf Bool.false_ne_true, fun hm => ?_⟩⟩
      have := h.match_le s16 pos hm
      omega
    obtain ⟨b, hb, hbiff⟩ := hfirst
    simp only [Option.bind_eq_bind, hb, Option.bind_some]
    cases b with
    | true =>
      refine ⟨true, rfl, ⟨fun _ => ?_, fun _ => rfl⟩⟩
      exact ⟨_, List.mem_cons_self .., hirrelevant, hbiff.mp rfl⟩
    | false =>
      refine ⟨found, hfound, hiff.trans ⟨?_, ?_⟩⟩
      · rintro ⟨p, hp, hm⟩
        exact ⟨p, List.mem_cons_of_mem _ hp, hm⟩
      rintro ⟨p, hp, hne, hm⟩
      rcases List.mem_cons.mp hp with rfl | hp
      · cases hbiff.mpr hm
      · exact ⟨p, hp, hne, hm⟩

theorem notLoop_eq (h : d.Describes Bd cp Match (strings.map (·.1)))
    (hpos : ∀ p ∈ strings, 0 < p.1.length)
    (hbytes : ∀ p ∈ strings, p.2 = allCpContained → ∀ i, Match p.1 i → ∃ j, cp i j) {fuel pos : Nat}
    (hbound : Bd pos) (hle : pos ≤ d.length)
    (hbefore : ∀ i < pos, ¬ Starts (strings.map (·.1)) cp Match i) (hfuel : d.length - pos < fuel) :
    ∃ n, d.loop strings fuel pos = some n ∧
      IsFirst (Starts (strings.map (·.1)) cp Match) d.length n := by
  induction fuel generalizing pos with
  | zero => omega
  | succ fuel ih =>
    have hend : (∀ i < d.length, ¬ Starts (strings.map (·.1)) cp Match i) →
        IsFirst (Starts (strings.map (·.1)) cp Match) d.length d.length :=
      fun hall => Or.inr ⟨rfl, fun i hi => hall i (h.lt_length i hi) hi⟩
    obtain ⟨n, hn, hbound', hle', hskip⟩ := h.skip pos hbound hle
    have hbefore' : ∀ i < pos + n, ¬ Starts (strings.map (·.1)) cp Match i := by
      intro i hi
      by_cases hip : i < pos
      · exact hbefore i hip
      · exact hskip i (by omega) hi
    rw [NotDirection.loop]
    simp only [Option.bind_eq_bind, hn, Option.bind_some]
    by_cases hall : n = d.length - pos
    · rw [if_pos hall]
      exact ⟨d.length, rfl, hend fun i hi => hbefore' i (by omega)⟩
    rw [if_neg hall]
    obtain ⟨m, hm, hone⟩ := h.one (pos + n) hbound' (by omega)
    rw [hm, Option.bind_some]
    have hfirst : Starts (strings.map (·.1)) cp Match (pos + n) →
        IsFirst (Starts (strings.map (·.1)) cp Match) d.length (pos + n) := by
      intro hstarts
      refine Or.inl ⟨hstarts, fun i hi => ?_⟩
      by_contra hlt
      exact hbefore' i (by omega) hi
    by_cases hcp : m > 0
    · rw [if_pos hcp] at hone ⊢
      exact ⟨pos + n, rfl, hfirst (Or.inl hone)⟩
    rw [if_neg hcp] at hone ⊢
    obtain ⟨hneg, hno, hbound'', hle'', hgap⟩ := hone
    obtain ⟨found, hfound, hiff⟩ := matchStrings_eq h hpos hle'
    rw [hfound, Option.bind_some]
    cases found with
    | true =>
      obtain ⟨p, hp, -, hmatch⟩ := hiff.mp rfl
      exact ⟨pos + n, rfl, hfirst (Or.inr ⟨p.1, List.mem_map_of_mem hp, hmatch⟩)⟩
    | false =>
      -- there is no element at this code point
      have hnone : ¬ Starts (strings.map (·.1)) cp Match (pos + n) := by
        rintro (⟨j, hj⟩ | ⟨t, ht, hmatch⟩)
        · exact hno j hj
        obtain ⟨p, hp, rfl⟩ := List.mem_map.mp ht
        by_cases hbyte : p.2 = allCpContained
        · obtain ⟨j, hj⟩ := hbytes p hp hbyte _ hmatch
          exact hno j hj
        · cases hiff.mpr ⟨p, hp, hbyte, hmatch⟩
      have hbefore'' : ∀ i < pos + n + (-m).toNat, ¬ Starts (strings.map (·.1)) cp Match i := by
        intro i hi hstarts
        rcases Nat.lt_trichotomy i (pos + n) with hlt | rfl | hgt
        · exact hbefore' i hlt hstarts
        · exact hnone hstarts
        · exact hgap i hgt hi (h.bound i hstarts)
      rw [if_neg Bool.false_ne_true]
      by_cases hrest : d.length - (pos + n + (-m).toNat) = 0
      · rw [if_pos hrest]
        exact ⟨d.length, rfl, hend fun i hi => hbefore'' i (by omega)⟩
      · rw [if_neg hrest]
        exact ih hbound'' hle'' hbefore'' (by omega)

end Loop

section SpanNotSet

variable {set spanSet : UnicodeSet} {list : List Int} {c : Nat} {pSpanNotSet : Option UnicodeSet}

theorem add_codePoint (h : CodePointSet spanSet) (hc : c < 0x110000) :
    ∃ out, spanSet.add c = some out ∧ CodePointSet out ∧ covers out.list c = true ∧
      ∀ c' : Nat, c' < 0x110000 → covers spanSet.list c' = true → covers out.list c' = true := by
  have hmem : ∀ c : Nat, c < 0x110000 → (c : Int) ∈ codePoints := by
    intro c hc
    exact ⟨Int.natCast_nonneg c, by have : maxValue = 0x10ffff := rfl; omega⟩
  have hd : Denotes spanSet {c | c ∈ codePoints ∧ covers spanSet.list c = true} :=
    { codePointSet := h
      subset := fun c hc => hc.1
      covers_iff := fun c hc => ⟨fun hcov => ⟨hc, hcov⟩, fun hmem => hmem.2⟩ }
  obtain ⟨out, hout, hdout⟩ := hd.add c
  have hpin : pinCodePoint c = c := pinCodePoint_eq (hmem c hc).1 (hmem c hc).2
  refine ⟨out, hout, hdout.codePointSet, (hdout.covers_iff c (hmem c hc)).mpr ?_, fun c' hc' hcov =>
    ?_⟩
  · rw [hpin]
    exact Set.mem_insert _ _
  · exact (hdout.covers_iff c' (hmem c' hc')).mpr (Set.mem_insert_of_mem _ ⟨hmem c' hc', hcov⟩)

/-- What the constructor knows about `spanSet`. -/
structure SpanSet (spanSet : UnicodeSet) (list : List Int) : Prop where
  spans : SpansWhile spanSet list
  thawed : CodePointSet spanSet.cloneAsThawed
  covers_eq : ∀ c : Nat, c < 0x110000 → covers spanSet.list c = covers list c

def Owned (pSpanNotSet : Option UnicodeSet) :
    Prop := ∀ own, pSpanNotSet = some own → CodePointSet own

/-- From one state of `pSpanNotSet` to another one, with more code points. -/
structure Grows (spanSet : UnicodeSet) (pSpanNotSet out : Option UnicodeSet) : Prop where
  owned : Owned out
  mono : ∀ c : Nat, c < 0x110000 → covers (pSpanNotSet.getD spanSet).list c = true →
    covers (out.getD spanSet).list c = true

theorem Grows.refl (h : Owned pSpanNotSet) : Grows spanSet pSpanNotSet pSpanNotSet :=
  ⟨h, fun _ _ hc => hc⟩

theorem Grows.trans {a b c : Option UnicodeSet} (hab : Grows spanSet a b)
    (hbc : Grows spanSet b c) :
    Grows spanSet a c :=
  ⟨hbc.owned, fun x hx hcov => hbc.mono x hx (hab.mono x hx hcov)⟩

theorem addToSpanNotSet_eq (hs : SpanSet spanSet list)
    (ho : Owned pSpanNotSet) (hc : c < 0x110000) :
    ∃ out, addToSpanNotSet spanSet pSpanNotSet c = some out ∧ Grows spanSet pSpanNotSet out ∧
      covers (out.getD spanSet).list c = true := by
  cases pSpanNotSet with
  | none =>
    rw [addToSpanNotSet]
    simp only [Option.bind_eq_bind, hs.spans.contains c hc, Option.bind_some]
    cases hcov : covers list c with
    | true =>
      refine ⟨none, rfl, Grows.refl ho, ?_⟩
      rw [Option.getD_none, hs.covers_eq c hc, hcov]
    | false =>
      obtain ⟨out, hout, hset, hhas, hmono⟩ := add_codePoint hs.thawed hc
      refine ⟨some out, ?_, ⟨?_, hmono⟩, hhas⟩
      · rw [if_neg Bool.false_ne_true, hout]
        rfl
      · rintro own ⟨⟩
        exact hset
  | some own =>
    obtain ⟨out, hout, hset, hhas, hmono⟩ := add_codePoint (ho own rfl) hc
    refine ⟨some out, ?_, ⟨?_, hmono⟩, hhas⟩
    · rw [addToSpanNotSet, hout]
      rfl
    · rintro own' ⟨⟩
      exact hset

theorem addEnd_eq (hs : SpanSet spanSet list)
    (ho : Owned pSpanNotSet) (wanted : Bool) (hc : c < 0x110000) :
    ∃ out, addEnd wanted spanSet pSpanNotSet (some (c, i)) = some out ∧
      Grows spanSet pSpanNotSet out ∧
      (wanted = true → covers (out.getD spanSet).list c = true) := by
  cases wanted with
  | true =>
    obtain ⟨out, hout, hgrows, hhas⟩ := addToSpanNotSet_eq hs ho hc
    exact ⟨out, hout, hgrows, fun _ => hhas⟩
  | false => exact ⟨pSpanNotSet, rfl, Grows.refl ho, fun hyes => absurd hyes Bool.false_ne_true⟩

/-- A set has the first code point of a string, and the last one. -/
def HasEnds (which : WhichNot) (list : List Int) (t : List UInt16) : Prop :=
  (which.fwd = true → ∀ j c, CodePointAt t 0 j c → covers list c = true) ∧
    (which.back = true → ∀ i c, CodePointAt t i t.length c → covers list c = true)

theorem addStringEnds_eq (hs : SpanSet spanSet list) (which : WhichNot) (ho : Owned pSpanNotSet)
    (hmono : ∀ c : Nat, c < 0x110000 → covers spanSet.list c = true →
      covers (pSpanNotSet.getD spanSet).list c = true) (hpos : 0 < t.length) :
    ∃ out, addStringEnds which spanSet pSpanNotSet t = some out ∧ Grows spanSet pSpanNotSet out ∧
      HasEnds which (out.getD spanSet).list t := by
  obtain ⟨b, hb, -, hcontained⟩ := isRelevant_eq hs.spans.spans t
  obtain ⟨j, c, hfirst⟩ := (isBoundary_zero t).exists_next hpos
  obtain ⟨i, c2, hlast⟩ := (isBoundary_length t).exists_prev hpos
  rw [addStringEnds]
  simp only [Option.bind_eq_bind, hb, Option.bind_some]
  cases b with
  | false =>
    -- the code points of an irrelevant string are in the set
    refine ⟨pSpanNotSet, rfl, Grows.refl ho, fun _ j' c' hcp => ?_, fun _ i' c' hcp => ?_⟩
    · rcases ReflTransGen.cases_head (hcontained rfl) with heq | ⟨j', ⟨c'', hcp', hcov⟩, -⟩
      · omega
      rw [(hcp.unique hcp').2]
      exact hmono _ hcp'.code_lt ((hs.covers_eq _ hcp'.code_lt).trans hcov)
    rcases ReflTransGen.cases_tail (hcontained rfl) with heq | ⟨i', -, c'', hcp', hcov⟩
    · omega
    obtain rfl := hcp.unique_left hcp'
    rw [(hcp.unique hcp').2]
    exact hmono _ hcp'.code_lt ((hs.covers_eq _ hcp'.code_lt).trans hcov)
  | true =>
    rw [if_pos rfl, hfirst.u16Next_eq, hlast.u16Prev_eq]
    obtain ⟨a, ha, hgrows, hfwd⟩ := addEnd_eq (i := j) hs ho which.fwd hfirst.code_lt
    obtain ⟨out, hout, hgrows', hback⟩ :=
      addEnd_eq (i := i) hs hgrows.owned which.back hlast.code_lt
    refine ⟨out, ?_, hgrows.trans hgrows', fun hw j' c' hcp => ?_, fun hw i' c' hcp => ?_⟩
    · rw [ha, Option.bind_some, hout]
    · rw [(hcp.unique hfirst).2]
      exact hgrows'.mono c hfirst.code_lt (hfwd hw)
    · obtain rfl := hcp.unique_left hlast
      rw [(hcp.unique hlast).2]
      exact hback hw

theorem HasEnds.mono {list list' : List Int} (h : HasEnds which list t)
    (hmono : ∀ c : Nat, c < 0x110000 → covers list c = true → covers list' c = true) :
    HasEnds which list' t :=
  ⟨fun hw j c hcp => hmono c hcp.code_lt (h.1 hw j c hcp),
    fun hw i c hcp => hmono c hcp.code_lt (h.2 hw i c hcp)⟩

theorem foldlM_addStringEnds (hs : SpanSet spanSet list) (which : WhichNot)
    {strings : List (List UInt16)} (hpos : ∀ t ∈ strings, 0 < t.length)
    (hg : Grows spanSet none pSpanNotSet) :
    ∃ out, strings.foldlM (addStringEnds which spanSet) pSpanNotSet = some out ∧
      Grows spanSet pSpanNotSet out ∧ ∀ t ∈ strings, HasEnds which (out.getD spanSet).list t := by
  induction strings generalizing pSpanNotSet with
  | nil => exact ⟨pSpanNotSet, rfl, Grows.refl hg.owned, fun t ht => absurd ht List.not_mem_nil⟩
  | cons t strings ih =>
    obtain ⟨a, ha, hgrows, hends⟩ :=
      addStringEnds_eq hs which hg.owned hg.mono (hpos t (List.mem_cons_self ..))
    obtain ⟨out, hout, hgrows', hall⟩ :=
      ih (fun u hu => hpos u (List.mem_cons_of_mem _ hu)) (hg.trans hgrows)
    refine ⟨out, ?_, hgrows.trans hgrows', fun u hu => ?_⟩
    · rw [List.foldlM_cons, ha]
      exact hout
    rcases List.mem_cons.mp hu with rfl | hu
    · exact hends.mono hgrows'.mono
    · exact hall u hu

theorem frozenFor_cloneAsThawed {which : Which} {out : UnicodeSet}
    (h : frozenFor which spanSet = some out) : out.cloneAsThawed = spanSet.cloneAsThawed := by
  rw [frozenFor] at h
  split at h
  · rw [UnicodeSet.freeze] at h
    split at h
    · cases h
      rfl
    · obtain ⟨bmpSet, -, rfl⟩ := Option.map_eq_some_iff.mp h
      rfl
  · cases h
    rfl

theorem new_spanSet (hl : IsInversionList set.list) {which : Which} {ss : UnicodeSetStringSpan}
    (hnew : new set which = some ss) : SpanSet ss.spanSet set.list := by
  obtain ⟨full, spanSet, hfull, hretain, hset, hcov⟩ := exists_spanSet hl
  have hf : spanSet.bmpSet = none := by simpa [isFrozen] using hset.thawed
  have hclone : spanSet.cloneAsThawed = spanSet := by
    rw [UnicodeSet.cloneAsThawed, ← hf]
  rw [new] at hnew
  simp only [Option.bind_eq_bind, hfull, hretain, Option.bind_some, Option.bind_eq_some_iff] at hnew
  obtain ⟨relevant, -, hnew⟩ := hnew
  by_cases hsome : true ∈ relevant
  · rw [if_pos hsome] at hnew
    simp only [Option.bind_eq_some_iff] at hnew
    obtain ⟨frozen, hfrozen, fwd, -, back, -, hnew⟩ := hnew
    cases hnew
    obtain ⟨out, hout, hspans⟩ := frozenFor_eq hset which
    obtain rfl : frozen = out := Option.some.inj (hfrozen.symm.trans hout)
    have hthawed := frozenFor_cloneAsThawed hfrozen
    have hlist : frozen.cloneAsThawed.list = spanSet.cloneAsThawed.list := by rw [hthawed]
    change frozen.list = spanSet.list at hlist
    refine ⟨hspans.congr hcov, ?_, fun c hc => ?_⟩
    · rw [hthawed, hclone]
      exact hset
    · rw [hlist]
      exact hcov c hc
  · rw [if_neg hsome] at hnew
    cases hnew
    refine ⟨(spansWhile_of_thawed hset.list hf).congr hcov, ?_, hcov⟩
    rw [hclone]
    exact hset

theorem spanLengthByte_irrelevant (hspans : Spans spanSet list) {length : List UInt16 → Option Nat}
    (h : spanLengthByte spanSet length t = some allCpContained) :
    ReflTransGen (ContainedAt list t) 0 t.length := by
  obtain ⟨n, hn, hchain, -⟩ := hspans.span t
  rw [spanLengthByte, hn] at h
  simp only [Option.bind_eq_bind, Option.bind_some] at h
  by_cases hlt : n < t.length
  · rw [if_pos hlt] at h
    obtain ⟨m, -, hm⟩ := Option.bind_eq_some_iff.mp h
    exact absurd (Option.some.inj hm) (makeSpanLengthByte_ne m)
  have hend : n = t.length := by
    rcases ReflTransGen.cases_tail hchain with heq | ⟨i, -, c, hcp, -⟩
    · omega
    have := hcp.le_length
    omega
  rwa [hend] at hchain

structure BuiltFor (set : UnicodeSet) (ss : UnicodeSetStringSpan) : Prop where
  spanSet : SpanSet ss.spanSet set.list
  strings : ss.strings = set.strings
  bytes : ss.needsStringSpanUTF16 = true → List.Forall₂ (fun t byte => byte = allCpContained →
    ReflTransGen (ContainedAt set.list t) 0 t.length) ss.strings ss.spanLengths
  irrelevant : ss.needsStringSpanUTF16 = false →
    ∀ t ∈ set.strings, ReflTransGen (ContainedAt set.list t) 0 t.length

theorem newFor_eq (hl : IsInversionList set.list) (which : WhichNot) :
    ∃ ss, newFor set which = some ss ∧ BuiltFor set ss := by
  rw [newFor]
  by_cases hall : which = .all
  · obtain ⟨ss, hnew, hbuilt⟩ := new_eq hl .all
    have hspanSet := new_spanSet hl hnew
    refine ⟨ss, by rw [if_pos hall, hnew], hspanSet, hbuilt.strings, fun hneeds => ?_,
      hbuilt.irrelevant⟩
    obtain ⟨bytes, hbytes, hforall⟩ := mapM_eq_some (l := set.strings)
      (Q := fun t byte => fwdByte ss.spanSet t = some byte) fun t _ =>
        (fwdByte_eq hbuilt.spans t).imp fun _ h => ⟨h.1, h.1⟩
    rw [new_spanLengths hnew hneeds (by decide), Option.some.injEq] at hbytes
    rw [hbytes, hbuilt.strings]
    refine hforall.imp fun t byte h hbyte => ?_
    rw [hbyte] at h
    exact spanLengthByte_irrelevant hbuilt.spans h
  rw [if_neg hall]
  obtain ⟨ss, hnew, hbuilt⟩ := new_eq hl .fwdUtf16Contained
  have hspanSet := new_spanSet hl hnew
  simp only [Option.bind_eq_bind, hnew, Option.bind_some]
  by_cases hneeds : ss.needsStringSpanUTF16 = true
  · obtain ⟨flags, hflags, hforall⟩ := mapM_eq_some (l := set.strings)
      (Q := fun t byte => flagByte ss.spanSet t = some byte) (f :=
        flagByte ss.spanSet) fun t _ => by
        obtain ⟨n, hn, -, -⟩ := hbuilt.spans.span t
        rw [flagByte, spanLengthByte, hn]
        simp only [Option.bind_eq_bind, Option.bind_some]
        split
        · exact ⟨_, rfl, rfl⟩
        · exact ⟨_, rfl, rfl⟩
    rw [if_pos hneeds, hflags, Option.bind_some]
    refine ⟨_, rfl, hspanSet, hbuilt.strings, fun _ => ?_, fun hno => ?_⟩
    · dsimp only
      rw [hbuilt.strings]
      refine hforall.imp fun t byte h hbyte => ?_
      rw [hbyte] at h
      exact spanLengthByte_irrelevant hbuilt.spans h
    · rw [needsStringSpanUTF16] at hneeds hno
      rw [hneeds] at hno
      cases hno
  · rw [if_neg hneeds]
    exact ⟨ss, rfl, hspanSet, hbuilt.strings, fun hyes => absurd hyes hneeds, hbuilt.irrelevant⟩

end SpanNotSet

section Directions

variable {stringSpan : UnicodeSetSpanNot} {list list' : List Int} {strings : List (List UInt16)}

theorem one_cases {one : Option Int} {has : Bool} {P : Prop} {Q : Nat → Prop}
    (hone : one = some (if has then (n : Int) else -(n : Int))) (hn : 0 < n) (hyes : has = true → P)
    (hno : has = false → Q n) : ∃ m, one = some m ∧ if m > 0 then P else m < 0 ∧ Q (-m).toNat := by
  refine ⟨_, hone, ?_⟩
  cases has with
  | true =>
    rw [if_pos rfl, if_pos (by omega)]
    exact hyes rfl
  | false =>
    rw [if_neg Bool.false_ne_true, if_neg (by omega)]
    refine ⟨by omega, ?_⟩
    rw [Int.neg_neg, Int.toNat_natCast]
    exact hno rfl

theorem forwardNot_describes (hspans : Spans stringSpan.spanSet list)
    (hnot : SpansWhile stringSpan.spanNotSet list')
    (hmore : ∀ c : Nat, c < 0x110000 → covers list c = true → covers list' c = true)
    (hpos : ∀ t ∈ strings, 0 < t.length)
    (hstarts : ∀ t ∈ strings, ∀ j c, CodePointAt t 0 j c → covers list' c = true)
    (s : List UInt16) :
    (stringSpan.forwardNot s).Describes (IsBoundary s) (ContainedAt list s)
      (fun t start => SubstringAt s t start) strings where
  zero := isBoundary_zero s
  bound := by
    rintro i (⟨j, c, hcp, -⟩ | ⟨t, -, hm⟩)
    · exact hcp.left
    · exact hm.left
  lt_length := by
    rintro i (⟨j, c, hcp, -⟩ | ⟨t, ht, hm⟩)
    · exact Nat.lt_of_lt_of_le hcp.lt hcp.le_length
    have hle := hm.right.1
    have := hpos t ht
    change i < s.length
    omega
  skip := by
    intro pos hbound hle
    obtain ⟨n, hn, hchain, -⟩ := hnot.span (s.drop pos) .notContained
    have hsub := hbound.substringAt_drop
    have hpieces := Utf16.pieces s fun c => covers list' c = false
    have hend : IsBoundary (s.drop pos) n := by
      rcases ReflTransGen.cases_tail hchain with rfl | ⟨i, -, c, hcp, -⟩
      · exact isBoundary_zero _
      · exact hcp.right
    have hchain := (hsub.chain_iff hend.1).mp hchain
    have hend' := (hsub.isBoundary_iff hend.1).mp hend
    refine ⟨n, hn, hend', hend'.1, fun i hi hin hstart => ?_⟩
    -- the code point at i is not in the list
    have hother : ∀ {j c}, CodePointAt s i j c → covers list' c = true → False := by
      intro j c hcp hcov
      rcases ReflTransGen.cases_head (hpieces.split hchain hcp.left hi (by omega)).2 with
        heq | ⟨j', ⟨c', hcp', hcov'⟩, -⟩
      · omega
      rw [(hcp.unique hcp').2, hcov'] at hcov
      cases hcov
    rcases hstart with ⟨j, c, hcp, hcov⟩ | ⟨t, ht, hm⟩
    · exact hother hcp (hmore c hcp.code_lt hcov)
    obtain ⟨j, c, hcp⟩ := (isBoundary_zero t).exists_next (hpos t ht)
    exact hother (hm.codePointAt_iff.mp hcp).1 (hstarts t ht j c hcp)
  one := by
    intro pos hbound hlt
    obtain ⟨j, c, hcp⟩ := hbound.exists_next hlt
    have hij := hcp.lt
    have hnext : pos + (j - pos) = j := by omega
    refine one_cases (Q := fun n => (∀ j, ¬ ContainedAt list s pos j) ∧ IsBoundary s (pos + n) ∧
      pos + n ≤ s.length ∧ ∀ i, pos < i → i < pos + n → ¬ IsBoundary s i)
      (spanOne_eq hspans hcp) (by omega) (fun hcov => ⟨j, c, hcp, hcov⟩) fun hcov => ⟨?_, ?_⟩
    · rintro j' ⟨c', hcp', hcov'⟩
      rw [← (hcp.unique hcp').2, hcov] at hcov'
      cases hcov'
    rw [hnext]
    refine ⟨hcp.right, hcp.le_length, fun i hpi hij' hbi => ?_⟩
    have := hcp.next hbi hpi
    omega
  isMatch := fun start t hpos hle => matches16CPB_eq hpos hle
  match_le := fun t start hm => hm.right.1

theorem backwardNot_describes (hspans : Spans stringSpan.spanSet list)
    (hnot : SpansWhile stringSpan.spanNotSet list')
    (hmore : ∀ c : Nat, c < 0x110000 → covers list c = true → covers list' c = true)
    (hpos : ∀ t ∈ strings, 0 < t.length)
    (hends : ∀ t ∈ strings, ∀ i c, CodePointAt t i t.length c → covers list' c = true)
    (s : List UInt16) :
    (stringSpan.backwardNot s).Describes (fun a => a ≤ s.length ∧ IsBoundary s (s.length - a))
      (Sweep.mirror s.length (ContainedAt list s)) (MatchBack s) strings where
  zero := ⟨Nat.zero_le _, isBoundary_length s⟩
  bound := by
    rintro i (⟨j, hj, c, hcp, -⟩ | ⟨t, -, hle, hm⟩)
    · have := hcp.lt
      exact ⟨by omega, hcp.right⟩
    have hright := hm.right
    rw [show s.length - i - t.length + t.length = s.length - i by omega] at hright
    exact ⟨by omega, hright⟩
  lt_length := by
    rintro i (⟨j, hj, c, hcp, -⟩ | ⟨t, ht, hle, -⟩)
    · have := hcp.lt
      change i < s.length
      omega
    · have := hpos t ht
      change i < s.length
      omega
  skip := by
    intro pos hbound _
    obtain ⟨hle, hbound⟩ := hbound
    obtain ⟨n, hn, hchain, -⟩ := hnot.spanBack (s.take (s.length - pos)) .notContained
    have hsub := hbound.substringAt_take
    have hlen : (s.take (s.length - pos)).length = s.length - pos := by
      rw [List.length_take]
      omega
    have hpieces := Utf16.pieces s fun c => covers list' c = false
    have hnle := le_of_reach (Utf16.pieces _ fun c => covers list' c = false).lt hchain
    have hend : IsBoundary (s.take (s.length - pos)) n := by
      rcases ReflTransGen.cases_head hchain with rfl | ⟨j, ⟨c, hcp, -⟩, -⟩
      · exact isBoundary_length _
      · exact hcp.left
    have hchain := (hsub.chain_iff (Nat.le_refl _)).mp hchain
    have hend' := (hsub.isBoundary_iff hend.1).mp hend
    rw [hlen] at hnle hchain
    rw [Nat.zero_add] at hchain hend'
    rw [Nat.zero_add] at hchain
    have hstop : s.length - (pos + (s.length - pos - n)) = n := by omega
    refine ⟨s.length - pos - n, ?_, ⟨by omega, ?_⟩, ?_, fun i hi hin hstart => ?_⟩
    · change Option.map _ (stringSpan.spanNotSet.spanBack (s.take (s.length - pos)) .notContained) =
        _
      rw [hn]
      rfl
    · rw [hstop]
      exact hend'
    · change pos + (s.length - pos - n) ≤ s.length
      omega
    -- the code point that ends there is not in the list
    have hother : ∀ {j c}, CodePointAt s j (s.length - i) c → covers list' c = true → False := by
      intro j c hcp hcov
      rcases ReflTransGen.cases_tail (hpieces.split hchain hcp.right (by omega) (by omega)).1 with
        heq | ⟨j', -, c', hcp', hcov'⟩
      · omega
      obtain rfl := hcp.unique_left hcp'
      rw [(hcp.unique hcp').2, hcov'] at hcov
      cases hcov
    rcases hstart with ⟨j, hj, c, hcp, hcov⟩ | ⟨t, ht, hfits, hm⟩
    · exact hother hcp (hmore c hcp.code_lt hcov)
    obtain ⟨j, c, hcp⟩ := (isBoundary_length t).exists_prev (hpos t ht)
    have hcp' := (hm.codePointAt_iff.mp hcp).1
    rw [show s.length - i - t.length + t.length = s.length - i by omega] at hcp'
    exact hother hcp' (hends t ht j c hcp)
  one := by
    intro pos hbound hlt
    change pos < s.length at hlt
    obtain ⟨i, c, hcp⟩ := hbound.2.exists_prev (by omega)
    have hij := hcp.lt
    have hnext : s.length - (pos + (s.length - pos - i)) = i := by omega
    refine one_cases (Q := fun n => (∀ j, ¬ Sweep.mirror s.length (ContainedAt list s) pos j) ∧
      (pos + n ≤ s.length ∧ IsBoundary s (s.length - (pos + n))) ∧ pos + n ≤ s.length ∧
      ∀ a, pos < a → a < pos + n → ¬ (a ≤ s.length ∧ IsBoundary s (s.length - a)))
      (spanOneBack_eq hspans hcp) (by omega)
      (fun hcov => ⟨s.length - i, by omega, c, ?_, hcov⟩) fun hcov => ⟨?_, ⟨by omega, ?_⟩, by omega,
        ?_⟩
    · rwa [Nat.sub_sub_self (by omega)]
    · rintro j ⟨hj, c', hcp', hcov'⟩
      obtain rfl := hcp.unique_left hcp'
      rw [← (hcp.unique hcp').2, hcov] at hcov'
      cases hcov'
    · rw [hnext]
      exact hcp.left
    · rintro a hpa ha ⟨hal, hba⟩
      have := hcp.next hba (by omega)
      omega
  isMatch := by
    intro start t hpos hle
    change start + t.length ≤ s.length at hle
    have hle' : s.length - start - t.length + t.length ≤ s.length := by omega
    obtain ⟨found, hmatch, hiff⟩ := matches16CPB_eq hpos hle'
    exact ⟨found, hmatch, hiff.trans ⟨fun h => ⟨hle, h⟩, fun h => h.2⟩⟩
  match_le := fun t start hm => hm.1

end Directions

section Functions

variable {set : UnicodeSet} {s : List UInt16} {ss : UnicodeSetSpanNot}

/-- What the loops need of `spanNotSet`. -/
structure CoversEnds (set : UnicodeSet) (which : WhichNot) (spanNotSet : UnicodeSet)
    (list : List Int) :
    Prop where
  spans : SpansWhile spanNotSet list
  more : ∀ c : Nat, c < 0x110000 → covers set.list c = true → covers list c = true
  ends : ∀ t ∈ set.strings, HasEnds which list t

theorem frozenNotFor_spansWhile {spanSet : UnicodeSet} {list : List Int} (hs : SpanSet spanSet list)
    (which : WhichNot) : ∃ out, frozenNotFor which spanSet = some out ∧ SpansWhile out list := by
  rw [frozenNotFor]
  by_cases hall : which = .all
  swap
  · exact ⟨spanSet, if_neg hall, hs.spans⟩
  rw [if_pos hall]
  cases hf : spanSet.bmpSet with
  | some bmpSet =>
    refine ⟨spanSet, ?_, hs.spans⟩
    rw [UnicodeSet.freeze, isFrozen, hf]
    rfl
  | none =>
    have hclone : spanSet.cloneAsThawed = spanSet := by
      rw [UnicodeSet.cloneAsThawed, ← hf]
    obtain ⟨out, hout, hspans⟩ := freeze_spansWhile (hclone ▸ hs.thawed)
    exact ⟨out, hout, hspans.congr hs.covers_eq⟩

theorem newNot_eq (hl : IsInversionList set.list) (hpos : ∀ t ∈ set.strings, 0 < t.length)
    (which : WhichNot) : ∃ ss, newNot set which = some ss ∧ BuiltFor set ss.toUnicodeSetStringSpan ∧
      (ss.needsStringSpanUTF16 = true → ∃ list, CoversEnds set which ss.spanNotSet list) := by
  obtain ⟨base, hbase, hbuilt⟩ := newFor_eq hl which
  rw [newNot]
  simp only [Option.bind_eq_bind, hbase, Option.bind_some]
  by_cases hneeds : base.needsStringSpanUTF16 = true
  swap
  · rw [if_neg hneeds]
    exact ⟨_, rfl, hbuilt, fun hyes => absurd hyes hneeds⟩
  obtain ⟨out, hout, hgrows, hends⟩ := foldlM_addStringEnds hbuilt.spanSet which hpos
    (Grows.refl fun own hown => by cases hown)
  rw [if_pos hneeds, hout, Option.bind_some]
  have hspanSet : ∃ list, SpanSet (out.getD base.spanSet) list ∧ ∀ c : Nat, c < 0x110000 →
      covers (out.getD base.spanSet).list c = true → covers list c = true := by
    cases out with
    | none =>
      refine ⟨set.list, hbuilt.spanSet, fun c hc hcov => ?_⟩
      rwa [← hbuilt.spanSet.covers_eq c hc]
    | some own =>
      have hown := hgrows.owned own rfl
      have hf : own.bmpSet = none := by simpa [isFrozen] using hown.thawed
      have hclone : own.cloneAsThawed = own := by
        rw [UnicodeSet.cloneAsThawed, ← hf]
      exact ⟨own.list, ⟨spansWhile_of_thawed hown.list hf, hclone.symm ▸ hown, fun _ _ => rfl⟩,
        fun c hc hcov => hcov⟩
  obtain ⟨list, hlist, hcov⟩ := hspanSet
  obtain ⟨frozen, hfrozen, hspans⟩ := frozenNotFor_spansWhile hlist which
  rw [hfrozen, Option.bind_some]
  refine ⟨_, rfl, hbuilt, fun _ => ⟨list, hspans, fun c hc hin => ?_, fun t ht => ?_⟩⟩
  · refine hcov c hc (hgrows.mono c hc ?_)
    rw [Option.getD_none, hbuilt.spanSet.covers_eq c hc]
    exact hin
  · exact (hends t ht).mono hcov

theorem starts_iff (s : List UInt16) (i : Nat) :
    Starts set.strings (ContainedAt set.list s) (fun t start => SubstringAt s t start) i ↔
      ∃ j, Consumes set s i j := by
  constructor
  · rintro (⟨j, hcp⟩ | ⟨t, ht, hm⟩)
    · exact ⟨j, Or.inl hcp⟩
    · exact ⟨i + t.length, Or.inr ⟨t, ht, hm, rfl⟩⟩
  · rintro ⟨j, hcp | ⟨t, ht, hm, -⟩⟩
    · exact Or.inl ⟨j, hcp⟩
    · exact Or.inr ⟨t, ht, hm⟩

theorem starts_back_iff (s : List UInt16) (a : Nat) :
    Starts set.strings (Sweep.mirror s.length (ContainedAt set.list s)) (MatchBack s) a ↔
      a ≤ s.length ∧ ∃ i, Consumes set s i (s.length - a) := by
  constructor
  · rintro (⟨b, hb, c, hcp, hcov⟩ | ⟨t, ht, hle, hm⟩)
    · have := hcp.lt
      exact ⟨by omega, s.length - b, Or.inl ⟨c, hcp, hcov⟩⟩
    · exact ⟨by omega, s.length - a - t.length, Or.inr ⟨t, ht, hm, by omega⟩⟩
  rintro ⟨hle, i, ⟨c, hcp, hcov⟩ | ⟨t, ht, hm, hi⟩⟩
  · refine Or.inl ⟨s.length - i, Nat.sub_le _ _, c, ?_, hcov⟩
    have := hcp.lt
    rwa [Nat.sub_sub_self (by omega)]
  · refine Or.inr ⟨t, ht, by omega, ?_⟩
    rwa [show s.length - a - t.length = i by omega]

/-- The last position where an element ends, or the start if there is none. -/
def IsLastEnd (set : UnicodeSet) (s : List UInt16) (n : Nat) : Prop :=
  IsGreatest {j | ∃ i, Consumes set s i j} n ∨ n = 0 ∧ ∀ i j, ¬ Consumes set s i j

theorem IsLastEnd.unique (hn : IsLastEnd set s n) (hm : IsLastEnd set s m) : n = m := by
  rcases hn with hn | ⟨rfl, hn⟩
  · rcases hm with hm | ⟨-, hm⟩
    · exact hn.unique hm
    obtain ⟨i, hi⟩ := hn.1
    exact absurd hi (hm i n)
  · rcases hm with hm | ⟨rfl, -⟩
    · obtain ⟨i, hi⟩ := hm.1
      exact absurd hi (hn i m)
    · rfl

theorem isLastEnd_of_isFirst (h : IsFirst (Starts set.strings
    (Sweep.mirror s.length (ContainedAt set.list s)) (MatchBack s)) s.length n) :
    IsLastEnd set s (s.length - n) := by
  rcases h with ⟨hn, hleast⟩ | ⟨rfl, hnone⟩
  · obtain ⟨hle, i, hi⟩ := (starts_back_iff s n).mp hn
    refine Or.inl ⟨⟨i, hi⟩, ?_⟩
    rintro j ⟨i', hi'⟩
    have hj := hi'.le_length
    have := hleast ((starts_back_iff s (s.length - j)).mpr ⟨Nat.sub_le _ _, i', by
      rwa [Nat.sub_sub_self hj]⟩)
    omega
  · refine Or.inr ⟨Nat.sub_self _, fun i j hij => hnone (s.length - j) ?_⟩
    refine (starts_back_iff s _).mpr ⟨Nat.sub_le _ _, i, ?_⟩
    rwa [Nat.sub_sub_self hij.le_length]

theorem containedAt_of_irrelevant (hpos : 0 < t.length)
    (hchain : ReflTransGen (ContainedAt set.list t) 0 t.length) (hm : SubstringAt s t i) :
    (∃ j, ContainedAt set.list s i j) ∧ ∃ j, ContainedAt set.list s j (i + t.length) := by
  constructor
  · rcases ReflTransGen.cases_head hchain with heq | ⟨j, ⟨c, hcp, hcov⟩, -⟩
    · omega
    · exact ⟨i + j, c, (hm.codePointAt_iff.mp hcp).1, hcov⟩
  · rcases ReflTransGen.cases_tail hchain with heq | ⟨j, -, c, hcp, hcov⟩
    · omega
    · exact ⟨i + j, c, (hm.codePointAt_iff.mp hcp).1, hcov⟩

section

variable (hpos : ∀ t ∈ set.strings, 0 < t.length)
include hpos

theorem spanNot_isFirst {list : List Int} (hbuilt : BuiltFor set ss.toUnicodeSetStringSpan)
    (hneeds : ss.needsStringSpanUTF16 = true) (hnot : CoversEnds set which ss.spanNotSet list)
    (hwhich : which.fwd = true) (s : List UInt16) :
    ∃ n, ss.spanNot s = some n ∧ IsFirst (fun i => ∃ j, Consumes set s i j) s.length n := by
  have hbytes := hbuilt.bytes hneeds
  have hmap : (ss.strings.zip ss.spanLengths).map (·.1) = set.strings := by
    rw [List.map_fst_zip (Nat.le_of_eq hbytes.length_eq), hbuilt.strings]
  have hmem : ∀ p ∈ ss.strings.zip ss.spanLengths, p.1 ∈ set.strings :=
    fun p hp => hmap ▸ List.mem_map_of_mem hp
  have hd := forwardNot_describes hbuilt.spanSet.spans.spans hnot.spans hnot.more hpos
    (fun t ht => (hnot.ends t ht).1 hwhich) s
  obtain ⟨n, hn, hfirst⟩ := notLoop_eq (hmap.symm ▸ hd) (fun p hp => hpos p.1 (hmem p hp))
    (fun p hp hbyte i hm => (containedAt_of_irrelevant (hpos p.1 (hmem p hp))
      (List.forall₂_zip hbytes hp hbyte) hm).1) (isBoundary_zero s) (Nat.zero_le _)
    (fun i hi => absurd hi (Nat.not_lt_zero i)) (Nat.lt_succ_self _)
  rw [hmap] at hfirst
  refine ⟨n, hn, ?_⟩
  have hsame : Starts set.strings (ContainedAt set.list s) (fun t start => SubstringAt s t start) =
      fun i => ∃ j, Consumes set s i j := funext fun i => propext (starts_iff s i)
  rw [← hsame]
  exact hfirst

theorem spanNotBack_isLastEnd {list : List Int} (hbuilt : BuiltFor set ss.toUnicodeSetStringSpan)
    (hneeds : ss.needsStringSpanUTF16 = true) (hnot : CoversEnds set which ss.spanNotSet list)
    (hwhich : which.back = true) (s : List UInt16) :
    ∃ n, ss.spanNotBack s = some n ∧ IsLastEnd set s n := by
  have hbytes := hbuilt.bytes hneeds
  have hmap : (ss.strings.zip ss.spanLengths).map (·.1) = set.strings := by
    rw [List.map_fst_zip (Nat.le_of_eq hbytes.length_eq), hbuilt.strings]
  have hmem : ∀ p ∈ ss.strings.zip ss.spanLengths, p.1 ∈ set.strings :=
    fun p hp => hmap ▸ List.mem_map_of_mem hp
  have hd := backwardNot_describes hbuilt.spanSet.spans.spans hnot.spans hnot.more hpos
    (fun t ht => (hnot.ends t ht).2 hwhich) s
  have hirrelevant : ∀ p ∈ ss.strings.zip ss.spanLengths, p.2 = allCpContained →
      ∀ a, MatchBack s p.1 a → ∃ b, Sweep.mirror s.length (ContainedAt set.list s) a b := by
    rintro p hp hbyte a ⟨hle, hm⟩
    obtain ⟨j, hj⟩ := (containedAt_of_irrelevant (hpos p.1 (hmem p hp))
      (List.forall₂_zip hbytes hp hbyte) hm).2
    rw [show s.length - a - p.1.length + p.1.length = s.length - a by omega] at hj
    refine ⟨s.length - j, Nat.sub_le _ _, ?_⟩
    have : j < s.length - a := hj.choose_spec.1.lt
    rwa [Nat.sub_sub_self (by omega)]
  obtain ⟨n, hn, hfirst⟩ := notLoop_eq (hmap.symm ▸ hd) (fun p hp => hpos p.1 (hmem p hp))
    hirrelevant ⟨Nat.zero_le _, isBoundary_length s⟩ (Nat.zero_le _)
    (fun i hi => absurd hi (Nat.not_lt_zero i)) (Nat.lt_succ_self _)
  rw [hmap] at hfirst
  refine ⟨s.length - n, ?_, isLastEnd_of_isFirst hfirst⟩
  rw [UnicodeSetSpanNot.spanNotBack]
  exact congrArg (Option.map fun n => s.length - n) hn

/-- Without relevant strings, an element starts and ends with a contained code point. -/
theorem Consumes.contained (h : ∀ t ∈ set.strings, ReflTransGen (ContainedAt set.list t) 0 t.length)
    {j : Nat} (hij : Consumes set s i j) :
    (∃ k, ContainedAt set.list s i k) ∧ ∃ k, ContainedAt set.list s k j := by
  rcases hij with hcp | ⟨t, ht, hm, rfl⟩
  · exact ⟨⟨j, hcp⟩, i, hcp⟩
  · exact containedAt_of_irrelevant (hpos t ht) (h t ht) hm

end

theorem spanNot_of_irrelevant {spanSet : UnicodeSet} (hspans : SpansWhile spanSet set.list)
    (hpos : ∀ t ∈ set.strings, 0 < t.length)
    (h : ∀ t ∈ set.strings, ReflTransGen (ContainedAt set.list t) 0 t.length) (s : List UInt16) :
    (∃ n, spanSet.span s .notContained = some n ∧
      IsFirst (fun i => ∃ j, Consumes set s i j) s.length n) ∧
    ∃ n, spanSet.spanBack s .notContained = some n ∧ IsLastEnd set s n := by
  have hpieces := Utf16.pieces s fun c => covers set.list c = false
  constructor
  · obtain ⟨n, hn, hchain, hstuck⟩ := hspans.span s .notContained
    refine ⟨n, hn, ?_⟩
    have hbound : IsBoundary s n := by
      rcases ReflTransGen.cases_tail hchain with rfl | ⟨i, -, c, hcp, -⟩
      · exact isBoundary_zero s
      · exact hcp.right
    have hbefore : ∀ i j, Consumes set s i j → n ≤ i := by
      intro i j hij
      obtain ⟨k, c, hcp, hcov⟩ := (hij.contained hpos h).1
      by_contra hlt
      rcases ReflTransGen.cases_head (hpieces.split hchain hcp.left (Nat.zero_le _) (by omega)).2
        with
        heq | ⟨k', ⟨c', hcp', hcov'⟩, -⟩
      · omega
      rw [(hcp.unique hcp').2, hcov'] at hcov
      cases hcov
    rcases Nat.lt_or_ge n s.length with hlt | hge
    · obtain ⟨j, c, hcp⟩ := hbound.exists_next hlt
      have hcov : covers set.list c = true := by
        rw [← Bool.not_eq_false]
        exact fun hno => hstuck j ⟨c, hcp, hno⟩
      exact Or.inl ⟨⟨j, Or.inl ⟨c, hcp, hcov⟩⟩, fun i ⟨j, hij⟩ => hbefore i j hij⟩
    have hle := hbound.1
    refine Or.inr ⟨by omega, fun i ⟨j, hij⟩ => ?_⟩
    obtain ⟨k, c, hcp, -⟩ := (hij.contained hpos h).1
    have := hbefore i j hij
    have := hcp.lt
    have := hcp.le_length
    omega
  · obtain ⟨n, hn, hchain, hstuck⟩ := hspans.spanBack s .notContained
    refine ⟨n, hn, ?_⟩
    have hnle := le_of_reach hpieces.lt hchain
    have hbound : IsBoundary s n := by
      rcases ReflTransGen.cases_head hchain with rfl | ⟨j, ⟨c, hcp, -⟩, -⟩
      · exact isBoundary_length s
      · exact hcp.left
    have hafter : ∀ i j, Consumes set s i j → j ≤ n := by
      intro i j hij
      obtain ⟨k, c, hcp, hcov⟩ := (hij.contained hpos h).2
      by_contra hlt
      rcases ReflTransGen.cases_tail (hpieces.split hchain hcp.right (by omega) hcp.le_length).1
        with
        heq | ⟨k', -, c', hcp', hcov'⟩
      · omega
      obtain rfl := hcp.unique_left hcp'
      rw [(hcp.unique hcp').2, hcov'] at hcov
      cases hcov
    rcases Nat.eq_zero_or_pos n with rfl | hlt
    · refine Or.inr ⟨rfl, fun i j hij => ?_⟩
      obtain ⟨k, c, hcp, -⟩ := (hij.contained hpos h).2
      have := hafter i j hij
      have := hcp.lt
      omega
    · obtain ⟨i, c, hcp⟩ := hbound.exists_prev hlt
      have hcov : covers set.list c = true := by
        rw [← Bool.not_eq_false]
        exact fun hno => hstuck i ⟨c, hcp, hno⟩
      exact Or.inl ⟨⟨i, Or.inl ⟨c, hcp, hcov⟩⟩, fun j ⟨i, hij⟩ => hafter i j hij⟩

/-- `spanNot` returns the first position where an element starts, and `spanNotBack` the last one
where an element ends. The positions do not depend on the variants that the object is built for. A
set without relevant strings does not need the object: its code points alone give the same
positions. -/
theorem spanNot_first_spanNotBack_last (hl : IsInversionList set.list) (hne : [] ∉ set.strings)
    (s : List UInt16) :
    (∃ n, IsFirst (fun i => ∃ j, Consumes set s i j) s.length n ∧ ∀ which : WhichNot,
      which.fwd = true → ∃ ss, newNot set which = some ss ∧
        (ss.needsStringSpanUTF16 = true → ss.spanNot s = some n) ∧
        (ss.needsStringSpanUTF16 = false → ss.spanSet.span s .notContained = some n)) ∧
    ∃ n, IsLastEnd set s n ∧ ∀ which : WhichNot,
      which.back = true → ∃ ss, newNot set which = some ss ∧
        (ss.needsStringSpanUTF16 = true → ss.spanNotBack s = some n) ∧
        (ss.needsStringSpanUTF16 = false → ss.spanSet.spanBack s .notContained = some n) := by
  have hpos : ∀ t ∈ set.strings, 0 < t.length := by
    intro t ht
    refine List.length_pos_of_ne_nil ?_
    rintro rfl
    exact hne ht
  have hfwd : ∀ which : WhichNot, which.fwd = true → ∃ ss n, newNot set which = some ss ∧
      IsFirst (fun i => ∃ j, Consumes set s i j) s.length n ∧
      (ss.needsStringSpanUTF16 = true → ss.spanNot s = some n) ∧
      (ss.needsStringSpanUTF16 = false → ss.spanSet.span s .notContained = some n) := by
    intro which hwhich
    obtain ⟨ss, hnew, hbuilt, hnot⟩ := newNot_eq hl hpos which
    cases hneeds : ss.needsStringSpanUTF16 with
    | true =>
      obtain ⟨list, hlist⟩ := hnot hneeds
      obtain ⟨n, hn, hfirst⟩ := spanNot_isFirst hpos hbuilt hneeds hlist hwhich s
      exact ⟨ss, n, hnew, hfirst, fun _ => hn, fun hno => absurd (hneeds.symm.trans hno)
        (by decide)⟩
    | false =>
      obtain ⟨n, hn, hfirst⟩ :=
        (spanNot_of_irrelevant hbuilt.spanSet.spans hpos (hbuilt.irrelevant hneeds) s).1
      exact ⟨ss, n, hnew, hfirst, fun hyes => absurd (hneeds.symm.trans hyes) (by decide), fun _ =>
        hn⟩
  have hback : ∀ which : WhichNot, which.back = true → ∃ ss n, newNot set which = some ss ∧
      IsLastEnd set s n ∧ (ss.needsStringSpanUTF16 = true → ss.spanNotBack s = some n) ∧
      (ss.needsStringSpanUTF16 = false → ss.spanSet.spanBack s .notContained = some n) := by
    intro which hwhich
    obtain ⟨ss, hnew, hbuilt, hnot⟩ := newNot_eq hl hpos which
    cases hneeds : ss.needsStringSpanUTF16 with
    | true =>
      obtain ⟨list, hlist⟩ := hnot hneeds
      obtain ⟨n, hn, hlast⟩ := spanNotBack_isLastEnd hpos hbuilt hneeds hlist hwhich s
      exact ⟨ss, n, hnew, hlast, fun _ => hn, fun hno => absurd (hneeds.symm.trans hno) (by decide)⟩
    | false =>
      obtain ⟨n, hn, hlast⟩ :=
        (spanNot_of_irrelevant hbuilt.spanSet.spans hpos (hbuilt.irrelevant hneeds) s).2
      exact ⟨ss, n, hnew, hlast, fun hyes => absurd (hneeds.symm.trans hyes) (by decide), fun _ =>
        hn⟩
  constructor
  · obtain ⟨-, n, -, hfirst, -, -⟩ := hfwd .all rfl
    refine ⟨n, hfirst, fun which hwhich => ?_⟩
    obtain ⟨ss, m, hnew, hm, hspan⟩ := hfwd which hwhich
    rw [hfirst.unique hm]
    exact ⟨ss, hnew, hspan⟩
  · obtain ⟨-, n, -, hlast, -, -⟩ := hback .all rfl
    refine ⟨n, hlast, fun which hwhich => ?_⟩
    obtain ⟨ss, m, hnew, hm, hspan⟩ := hback which hwhich
    rw [hlast.unique hm]
    exact ⟨ss, hnew, hspan⟩

/-- The set `[a{ab}{bc}]` and the text `xbca`. -/
theorem spanNot_first_spanNotBack_last_xbca :
    ∃ ss n, newNot ⟨[0x61, 0x62, 0x110000], [[0x61, 0x62], [0x62, 0x63]], none, false⟩ .all =
    some ss ∧
      ss.needsStringSpanUTF16 = true ∧ ss.spanNot [0x78, 0x62, 0x63, 0x61] = some n ∧
      IsFirst (fun i => ∃ j, Consumes
        ⟨[0x61, 0x62, 0x110000], [[0x61, 0x62], [0x62, 0x63]], none, false⟩
        [0x78, 0x62, 0x63, 0x61] i j)
        4 n := by
  have hl : IsInversionList [0x61, 0x62, 0x110000] := ⟨by decide, by decide, by decide⟩
  obtain ⟨⟨n, hn, hfwd⟩, -⟩ := @spanNot_first_spanNotBack_last
    ⟨[0x61, 0x62, 0x110000], [[0x61, 0x62], [0x62, 0x63]], none, false⟩ hl (by decide)
    [0x78, 0x62, 0x63, 0x61]
  obtain ⟨ss, hnew, hspan, -⟩ := hfwd .all rfl
  have hneeds : (newNot ⟨[0x61, 0x62, 0x110000], [[0x61, 0x62], [0x62, 0x63]], none,
    false⟩ .all).map
      (fun ss => ss.needsStringSpanUTF16) = some true := by decide
  rw [hnew] at hneeds
  have hneeds := Option.some.inj hneeds
  exact ⟨ss, n, hnew, hneeds, hspan hneeds, hn⟩

end Functions

end Icu.UnicodeSetStringSpan
