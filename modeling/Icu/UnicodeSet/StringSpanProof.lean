import Icu.UnicodeSet.StringSpanText

/-! # The spans of a set with strings

`UnicodeSetStringSpan::span` finds the farthest position that steps of one contained code point or
one set string reach from the start of the text, and `spanBack` the position nearest to the start
from which they reach the end.
-/

namespace Icu.UnicodeSetStringSpan

open UnicodeSet Utf16 Lib Lib.InversionList Lib.Sweep Relation

/-- One contained code point, or one set string that matches at code point boundaries. -/
def Consumes (set : UnicodeSet) (s : List UInt16) (i j : Nat) : Prop :=
  ContainedAt set.list s i j ∨ ∃ t ∈ set.strings, SubstringAt s t i ∧ j = i + t.length

section Bytes

variable {spanSet : UnicodeSet} {list : List Int}
variable {t : List UInt16}

theorem makeSpanLengthByte_ne (n : Nat) : makeSpanLengthByte n ≠ allCpContained := by
  rw [makeSpanLengthByte, allCpContained]
  split <;> omega

/-- The overlap for a byte is the length itself, unless that is too long. -/
theorem limitOf_makeSpanLengthByte (d : Direction) {n limit : Nat}
    (hlong : d.longOverlap t = some limit) :
    limitOf d t (makeSpanLengthByte n) = some (if n < longSpan then n else limit) := by
  rw [limitOf, makeSpanLengthByte, longSpan]
  by_cases hn : n < 0xfe
  · rw [if_pos hn, if_pos hn, if_neg (by omega)]
  · rw [if_neg hn, if_neg hn, if_pos (Nat.le_refl _), hlong]

theorem fwdByte_eq (hspans : Spans spanSet list)
    (t : List UInt16) :
    ∃ byte, fwdByte spanSet t = some byte ∧ ∀ (stringSpan : UnicodeSetStringSpan) (s : List UInt16),
      GoodByte (stringSpan.forward s) (IsBoundary s) (ContainedAt list s)
        (fun t start => SubstringAt s t start) t byte := by
  obtain ⟨n, hn, hchain, hstuck⟩ := hspans.span t
  have hpieces := Utf16.pieces t fun c => covers list c = true
  have hnle : n ≤ t.length := by
    rcases ReflTransGen.cases_tail hchain with rfl | ⟨i, -, c, hcp, -⟩
    · exact Nat.zero_le _
    · exact hcp.le_length
  rw [fwdByte, spanLengthByte, hn]
  simp only [Option.bind_eq_bind, Option.bind_some]
  by_cases hlt : n < t.length
  · refine ⟨makeSpanLengthByte n, by rw [if_pos hlt]; rfl, fun stringSpan s => ⟨?_, fun _ => ?_⟩⟩
    · exact fun heq => absurd heq (makeSpanLengthByte_ne n)
    obtain ⟨i, c, hcp⟩ := (isBoundary_length t).exists_prev (by omega)
    have hlong : (stringSpan.forward s).longOverlap t = some i := by
      change (u16Prev t 0 t.length).map _ = _
      rw [hcp.u16Prev_eq]
      rfl
    refine ⟨_, limitOf_makeSpanLengthByte _ hlong, ?_, ?_⟩
    · have := hcp.lt
      split <;> omega
    intro start pos hm hbound hle hpos hreach
    obtain ⟨k, rfl⟩ : ∃ k, pos = start + k := ⟨pos - start, by omega⟩
    split
    · have hk := hpieces.le_of_stuck hchain hstuck
        ((hm.chain_iff (k := 0) (by omega)).mpr hreach)
      omega
    have hk := (hm.isBoundary_iff (by omega)).mpr hbound
    by_contra hover
    have := hcp.next hk (by omega)
    omega
  · obtain rfl : n = t.length := by omega
    refine ⟨allCpContained, by rw [if_neg hlt]; rfl, fun _ s => ⟨fun _ start hm => ?_, ?_⟩⟩
    · exact (hm.chain_iff (k := 0) (Nat.le_refl _)).mp hchain
    · exact fun hne => absurd rfl hne

theorem u16Fwd1_eq {j c : Nat} (h : CodePointAt t 0 j c) : u16Fwd1 t 0 t.length = j := by
  cases t with
  | nil => exact absurd h.le_length (by have := h.lt; simp only [List.length_nil]; omega)
  | cons u us =>
    cases us with
    | nil =>
      have hlt := h.lt
      have hle := h.le_length
      simp only [List.length_cons, List.length_nil] at hle
      obtain rfl : j = 1 := by omega
      rfl
    | cons u2 us =>
      have hunit : unitAt (u :: u2 :: us) 0 = some u.toNat := rfl
      have hunit2 : unitAt (u :: u2 :: us) (0 + 1) = some u2.toNat := rfl
      have hfwd : u16Fwd1 (u :: u2 :: us) 0 (u :: u2 :: us).length =
          if u16IsLead u.toNat && u16IsTrail u2.toNat then 2 else 1 := by
        rw [u16Fwd1]
        simp
      rw [hfwd]
      cases h with
      | unit hi hc hpair =>
        rw [if_neg]
        intro hboth
        rw [Bool.and_eq_true] at hboth
        exact hpair ⟨_, _, hunit, hunit2, hboth.1, hboth.2⟩
      | pair hi hc hc2 hlead htrail =>
        obtain rfl := Option.some.inj (hunit.symm.trans hc)
        obtain rfl := Option.some.inj (hunit2.symm.trans hc2)
        rw [hlead, htrail]
        rfl

theorem backByte_eq (hspans : Spans spanSet list)
    (t : List UInt16) :
    ∃ byte, backByte spanSet t = some byte ∧
    ∀ (stringSpan : UnicodeSetStringSpan) (s : List UInt16),
      GoodByte (stringSpan.backward s) (fun a => a ≤ s.length ∧ IsBoundary s (s.length - a))
        (Sweep.mirror s.length (ContainedAt list s)) (MatchBack s) t byte := by
  obtain ⟨n, hn, hchain, hstuck⟩ := hspans.span t
  obtain ⟨m, hm, hback, hstuckBack⟩ := hspans.spanBack t
  have hpieces := Utf16.pieces t fun c => covers list c = true
  have hmle := le_of_reach hpieces.lt hback
  rw [backByte, spanLengthByte, hn, hm]
  simp only [Option.bind_eq_bind, Option.bind_some]
  by_cases hlt : n < t.length
  · refine ⟨makeSpanLengthByte (t.length - m), by rw [if_pos hlt]; rfl, fun stringSpan s =>
      ⟨?_, fun _ => ?_⟩⟩
    · exact fun heq => absurd heq (makeSpanLengthByte_ne _)
    have hmpos : 0 < m := by
      by_contra hzero
      obtain rfl : m = 0 := by omega
      have := hpieces.le_of_stuck hchain hstuck hback
      omega
    obtain ⟨j, c, hcp⟩ := (isBoundary_zero t).exists_next (by omega)
    have hj := hcp.lt
    have hlong : (stringSpan.backward s).longOverlap t = some (t.length - j) := by
      change some (t.length - u16Fwd1 t 0 t.length) = _
      rw [u16Fwd1_eq hcp]
    refine ⟨_, limitOf_makeSpanLengthByte _ hlong, ?_, ?_⟩
    · split <;> omega
    rintro start pos ⟨hend, hmatch⟩ ⟨hposle, hbound⟩ hle hpos hreach
    have hreach := reach_of_mirror hreach
    -- the part of the string that is in the span
    have hk : s.length - pos = s.length - start - t.length + (t.length - (pos - start)) := by omega
    have hstart : s.length - start = s.length - start - t.length + t.length := by omega
    rw [hk] at hbound hreach
    have hbound := (hmatch.isBoundary_iff (by omega)).mpr hbound
    have hreach : ReflTransGen (ContainedAt list s)
        (s.length - start - t.length + (t.length - (pos - start)))
        (s.length - start - t.length + t.length) := by
      rw [← hstart]
      exact hreach
    have hreach := (hmatch.chain_iff (Nat.le_refl _)).mpr hreach
    split
    · have := hpieces.ge_of_stuck hback hstuckBack hreach
      omega
    · have := hcp.next hbound (by omega)
      omega
  · have hnle : n ≤ t.length := by
      rcases ReflTransGen.cases_tail hchain with rfl | ⟨i, -, c, hcp, -⟩
      · exact Nat.zero_le _
      · exact hcp.le_length
    obtain rfl : n = t.length := by omega
    refine ⟨allCpContained, by rw [if_neg hlt]; rfl, fun _ s => ⟨?_, ?_⟩⟩
    · rintro - start ⟨hend, hmatch⟩
      have hreach := (hmatch.chain_iff (k := 0) (Nat.le_refl _)).mp hchain
      have hmirror := reach_mirror (Utf16.pieces s fun c => covers list c = true).lt hreach
        hmatch.right.1
      rw [show s.length - (s.length - start - t.length + t.length) = start by omega,
        show s.length - (s.length - start - t.length + 0) = start + t.length by omega] at hmirror
      exact hmirror
    · exact fun hne => absurd rfl hne

end Bytes

section Steps

variable {d : Direction} {Bd : Nat → Prop} {cp : Nat → Nat → Prop}
variable {Match : List UInt16 → Nat → Prop} {strings : List (List UInt16 × Nat)}

theorem reach_loopStep_iff (hbytes : ∀ p ∈ strings, GoodByte d Bd cp Match p.1 p.2) {a b : Nat} :
    ReflTransGen (LoopStep strings cp Match) a b ↔
      ReflTransGen (fun i j => cp i j ∨
        ∃ t ∈ strings.map Prod.fst, Match t i ∧ j = i + t.length) a b := by
  constructor
  · refine fun h => ReflTransGen.mono (fun i j hstep => hstep.imp_right ?_) _ _ h
    rintro ⟨p, hp, -, hm, hj⟩
    exact ⟨p.1, List.mem_map_of_mem hp, hm, hj⟩
  intro h
  induction h with
  | refl => exact .refl
  | @tail i j hreach hstep ih =>
    rcases hstep with hcp | ⟨t, ht, hm, rfl⟩
    · exact ih.tail (.inl hcp)
    obtain ⟨p, hp, rfl⟩ := List.mem_map.mp ht
    by_cases hbyte : p.2 = allCpContained
    · exact ih.trans (ReflTransGen.mono (fun _ _ hcp => Or.inl hcp) _ _
        ((hbytes p hp).irrelevant hbyte i hm))
    · exact ih.tail (.inr ⟨p, hp, hbyte, hm, rfl⟩)

variable {set : UnicodeSet} {s : List UInt16}

theorem Consumes.le_length {i j : Nat} (h : Consumes set s i j) : j ≤ s.length := by
  rcases h with ⟨c, hcp, -⟩ | ⟨t, -, hm, rfl⟩
  · exact hcp.le_length
  · exact hm.right.1

def StepBack (set : UnicodeSet) (s : List UInt16) (i j : Nat) : Prop :=
  Sweep.mirror s.length (ContainedAt set.list s) i j ∨
    ∃ t ∈ set.strings, MatchBack s t i ∧ j = i + t.length

theorem consumes_of_stepBack {n : Nat} (h : ReflTransGen (StepBack set s) 0 n) :
    ReflTransGen (Consumes set s) (s.length - n) s.length := by
  induction h with
  | refl => exact .refl
  | @tail i j hreach hstep ih =>
    refine .head ?_ ih
    rcases hstep with ⟨-, hcp⟩ | ⟨t, ht, ⟨hle, hm⟩, rfl⟩
    · exact .inl hcp
    refine .inr ⟨t, ht, ?_, by omega⟩
    rw [← Nat.sub_sub]
    exact hm

theorem stepBack_of_consumes {i : Nat} (h : ReflTransGen (Consumes set s) i s.length) :
    ReflTransGen (StepBack set s) 0 (s.length - i) := by
  induction h using ReflTransGen.head_induction_on with
  | refl => rw [Nat.sub_self]
  | @head a b hstep hreach ih =>
    have hle := hstep.le_length
    refine ih.tail ?_
    rcases hstep with hcp | ⟨t, ht, hm, rfl⟩
    · have hlt : a < b := hcp.choose_spec.1.lt
      refine .inl ⟨Nat.sub_le _ _, ?_⟩
      rw [Nat.sub_sub_self (by omega), Nat.sub_sub_self hle]
      exact hcp
    · refine .inr ⟨t, ht, ⟨by omega, ?_⟩, by omega⟩
      rwa [show s.length - (s.length - (a + t.length)) - t.length = a by omega]

end Steps

section Functions

variable {set : UnicodeSet}

theorem mapM_eq_some {α β : Type} {f : α → Option β} {Q : α → β → Prop} {l : List α}
    (h : ∀ a ∈ l, ∃ b, f a = some b ∧ Q a b) : ∃ bs, l.mapM f = some bs ∧ List.Forall₂ Q l bs := by
  induction l with
  | nil => exact ⟨[], rfl, .nil⟩
  | cons a l ih =>
    obtain ⟨b, hb, hQ⟩ := h a List.mem_cons_self
    obtain ⟨bs, hbs, hall⟩ := ih fun x hx => h x (List.mem_cons_of_mem _ hx)
    exact ⟨b :: bs, by simp [hb, hbs], .cons hQ hall⟩

theorem exists_of_forall₂ {α β : Type} {Q : α → β → Prop} {l : List α} {m : List β}
    (h : List.Forall₂ Q l m) {a : α} (ha : a ∈ l) : ∃ b ∈ m, Q a b := by
  induction h with
  | nil => cases ha
  | cons hQ _ ih =>
    rcases List.mem_cons.mp ha with rfl | ha
    · exact ⟨_, List.mem_cons_self, hQ⟩
    obtain ⟨b, hb, hQb⟩ := ih ha
    exact ⟨b, List.mem_cons_of_mem _ hb, hQb⟩

theorem length_le_maxLength16 {strings : List (List UInt16)} {t : List UInt16} (h : t ∈ strings) :
    t.length ≤ (strings.map List.length).foldl max 0 := by
  have hmax : ∀ (l : List Nat) (a n : Nat), n ∈ l ∨ n ≤ a → n ≤ l.foldl max a := by
    intro l
    induction l with
    | nil =>
      intro a n hn
      simpa using hn
    | cons b l ih =>
      intro a n hn
      refine ih (max a b) n ?_
      rcases hn with hn | hn
      · rcases List.mem_cons.mp hn with rfl | hn
        · exact .inr (Nat.le_max_right _ _)
        · exact .inl hn
      · exact .inr (by omega)
  exact hmax _ 0 _ (.inl (List.mem_map_of_mem h))

theorem exists_spanSet (hl : IsInversionList set.list) :
    ∃ full spanSet, UnicodeSet.empty.complementRange 0 0x10ffff = some full ∧
      full.retainAll set = some spanSet ∧ CodePointSet spanSet ∧
      ∀ c : Nat, c < 0x110000 → covers spanSet.list c = covers set.list c := by
  obtain ⟨full, hfull, hdfull⟩ := Denotes.empty.complementRange 0 0x10ffff
  -- only the list is used, since there are no strings to retain
  set other : UnicodeSet := ⟨set.list, [], none, false⟩
  have hother : Denotes other {c | c ∈ codePoints ∧ covers set.list c = true} :=
    { codePointSet := ⟨hl, rfl, rfl, rfl⟩
      subset := fun c hc => hc.1
      covers_iff := fun c hc => ⟨fun hcov => ⟨hc, hcov⟩, fun hmem => hmem.2⟩ }
  obtain ⟨spanSet, hretain, hd⟩ := hdfull.retainAll hother
  have hsame : full.retainAll set = full.retainAll other := by
    rw [UnicodeSet.retainAll, UnicodeSet.retainAll, hdfull.writable]
    change Option.map _ (full.retainList set.list false) =
      Option.map _ (full.retainList set.list false)
    obtain ⟨out, hout⟩ : ∃ out, full.retainList set.list false = out := ⟨_, rfl⟩
    rw [hout]
    cases out with
    | none => rfl
    | some out =>
      have hstrings : out.strings = [] := by
        rw [UnicodeSet.retainList, hdfull.writable, if_neg Bool.false_ne_true,
          Option.map_eq_some_iff] at hout
        obtain ⟨list, -, rfl⟩ := hout
        exact hdfull.codePointSet.strings
      simp [hstrings]
  refine ⟨full, spanSet, hfull, hsame.trans hretain, hd.codePointSet, fun c hc => ?_⟩
  have hmem : (c : Int) ∈ codePoints :=
    ⟨Int.natCast_nonneg c, by have : maxValue = 0x10ffff := rfl; omega⟩
  have hrange : (c : Int) ∈ pinnedRange 0 0x10ffff := ⟨Int.natCast_nonneg c, hmem.2⟩
  have hiff := hd.covers_iff c hmem
  have hin : (c : Int) ∈ symmDiff ∅ (pinnedRange 0 0x10ffff) := by
    rw [← Set.bot_eq_empty, bot_symmDiff]
    exact hrange
  rw [Set.mem_inter_iff] at hiff
  rw [Bool.eq_iff_iff, hiff]
  exact ⟨fun h => h.2.2, fun h => ⟨hin, hmem, h⟩⟩

theorem span_eq {ss : UnicodeSetStringSpan} (hspans : Spans ss.spanSet set.list)
    (hstrings : ss.strings = set.strings)
    (hbytes : List.Forall₂ (fun t byte => ∀ s, GoodByte (ss.forward s) (IsBoundary s)
      (ContainedAt set.list s) (fun t start => SubstringAt s t start) t byte)
      ss.strings ss.spanLengths)
    (hlengths : ∀ t ∈ ss.strings, t.length ≤ ss.maxLength16) (s : List UInt16) :
    ∃ n, ss.span s = some n ∧ IsGreatest {j | ReflTransGen (Consumes set s) 0 j} n := by
  have hgood : ∀ p ∈ ss.strings.zip ss.spanLengths, GoodByte (ss.forward s) (IsBoundary s)
      (ContainedAt set.list s) (fun t start => SubstringAt s t start) p.1 p.2 :=
    fun p hp => List.forall₂_zip hbytes hp s
  obtain ⟨n, hrun, hn⟩ := run_eq (forward_describes ss hspans s) hgood
    fun p hp => hlengths p.1 (List.of_mem_zip hp).1
  refine ⟨n, hrun, ?_⟩
  have hsteps : {j | ReflTransGen (LoopStep (ss.strings.zip ss.spanLengths) (ContainedAt set.list s)
      fun t start => SubstringAt s t start) 0 j} = {j | ReflTransGen (Consumes set s) 0 j} := by
    ext j
    rw [Set.mem_ofPred_eq, Set.mem_ofPred_eq, reach_loopStep_iff hgood,
      List.map_fst_zip (Nat.le_of_eq hbytes.length_eq), hstrings]
    rfl
  rwa [hsteps] at hn

theorem spanBack_eq {ss : UnicodeSetStringSpan} (hspans : Spans ss.spanSet set.list)
    (hstrings : ss.strings = set.strings)
    (hbytes : List.Forall₂ (fun t byte => ∀ s, GoodByte (ss.backward s)
      (fun a => a ≤ s.length ∧ IsBoundary s (s.length - a))
      (Sweep.mirror s.length (ContainedAt set.list s)) (MatchBack s) t byte)
      ss.strings ss.spanBackLengths)
    (hlengths : ∀ t ∈ ss.strings, t.length ≤ ss.maxLength16) (s : List UInt16) :
    ∃ n, ss.spanBack s = some n ∧ IsLeast {i | ReflTransGen (Consumes set s) i s.length} n := by
  have hgood : ∀ p ∈ ss.strings.zip ss.spanBackLengths, GoodByte (ss.backward s)
      (fun a => a ≤ s.length ∧ IsBoundary s (s.length - a))
      (Sweep.mirror s.length (ContainedAt set.list s)) (MatchBack s) p.1 p.2 :=
    fun p hp => List.forall₂_zip hbytes hp s
  obtain ⟨n, hrun, hreach, hgreatest⟩ := run_eq (backward_describes ss hspans s) hgood
    fun p hp => hlengths p.1 (List.of_mem_zip hp).1
  have hsteps : ∀ j, ReflTransGen (LoopStep (ss.strings.zip ss.spanBackLengths)
      (Sweep.mirror s.length (ContainedAt set.list s)) (MatchBack s)) 0 j ↔
        ReflTransGen (StepBack set s) 0 j := by
    intro j
    rw [reach_loopStep_iff hgood, List.map_fst_zip (Nat.le_of_eq hbytes.length_eq), hstrings]
    rfl
  refine ⟨s.length - n, by rw [spanBack, hrun]; rfl, ?_, fun i hi => ?_⟩
  · exact consumes_of_stepBack ((hsteps n).mp hreach)
  have := hgreatest ((hsteps _).mpr (stepBack_of_consumes hi))
  omega

theorem consumes_of_irrelevant {s : List UInt16}
    (h : ∀ t ∈ set.strings, ReflTransGen (ContainedAt set.list t) 0 t.length) {i j : Nat} :
    ReflTransGen (Consumes set s) i j ↔ ReflTransGen (ContainedAt set.list s) i j := by
  constructor
  · intro hreach
    induction hreach with
    | refl => exact .refl
    | tail _ hstep ih =>
      rcases hstep with hcp | ⟨t, ht, hm, rfl⟩
      · exact ih.tail hcp
      · exact ih.trans ((hm.chain_iff (k := 0) (Nat.le_refl _)).mp (h t ht))
  · exact fun hreach => ReflTransGen.mono (fun _ _ hcp => Or.inl hcp) _ _ hreach

theorem span_of_irrelevant {spanSet : UnicodeSet} (hspans : Spans spanSet set.list)
    (h : ∀ t ∈ set.strings, ReflTransGen (ContainedAt set.list t) 0 t.length) (s : List UInt16) :
    (∃ n, spanSet.span s .contained = some n ∧
      IsGreatest {j | ReflTransGen (Consumes set s) 0 j} n) ∧
    ∃ n, spanSet.spanBack s .contained = some n ∧
      IsLeast {i | ReflTransGen (Consumes set s) i s.length} n := by
  have hpieces := Utf16.pieces s fun c => covers set.list c = true
  simp only [consumes_of_irrelevant h]
  obtain ⟨n, hn, hchain, hstuck⟩ := hspans.span s
  obtain ⟨m, hm, hback, hstuckBack⟩ := hspans.spanBack s
  exact ⟨⟨n, hn, hchain, fun j hj => hpieces.le_of_stuck hchain hstuck hj⟩,
    m, hm, hback, fun i hi => hpieces.ge_of_stuck hback hstuckBack hi⟩

theorem frozenFor_eq {spanSet : UnicodeSet} (h : CodePointSet spanSet) (which : Which) :
    ∃ out, frozenFor which spanSet = some out ∧ SpansWhile out spanSet.list := by
  have hf : spanSet.bmpSet = none := by simpa [isFrozen] using h.thawed
  rw [frozenFor]
  by_cases hwhich : which = .all
  · rw [if_pos hwhich]
    exact freeze_spansWhile h
  · exact ⟨spanSet, if_neg hwhich, spansWhile_of_thawed h.list hf⟩

structure Built (set : UnicodeSet) (which : Which) (ss : UnicodeSetStringSpan) : Prop where
  spans : Spans ss.spanSet set.list
  strings : ss.strings = set.strings
  lengths : ss.needsStringSpanUTF16 = true → ∀ t ∈ ss.strings, t.length ≤ ss.maxLength16
  forward : ss.needsStringSpanUTF16 = true → which ≠ .backUtf16Contained →
    List.Forall₂ (fun t byte => ∀ s, GoodByte (ss.forward s) (IsBoundary s)
      (ContainedAt set.list s) (fun t start => SubstringAt s t start) t byte)
      ss.strings ss.spanLengths
  backward : ss.needsStringSpanUTF16 = true → which ≠ .fwdUtf16Contained →
    List.Forall₂ (fun t byte => ∀ s, GoodByte (ss.backward s)
      (fun a => a ≤ s.length ∧ IsBoundary s (s.length - a))
      (Sweep.mirror s.length (ContainedAt set.list s)) (MatchBack s) t byte)
      ss.strings ss.spanBackLengths
  irrelevant : ss.needsStringSpanUTF16 = false →
    ∀ t ∈ set.strings, ReflTransGen (ContainedAt set.list t) 0 t.length

theorem isRelevant_eq {spanSet : UnicodeSet} {list : List Int} (hspans : Spans spanSet list)
    (t : List UInt16) : ∃ b, isRelevant spanSet t = some b ∧
      (b = true → 0 < t.length) ∧ (b = false → ReflTransGen (ContainedAt list t) 0 t.length) := by
  obtain ⟨n, hn, hchain, -⟩ := hspans.span t
  refine ⟨decide (n < t.length), by rw [isRelevant, hn]; rfl, ?_, ?_⟩
  · rw [decide_eq_true_iff]
    omega
  rw [decide_eq_false_iff_not]
  intro hle
  have hend : n = t.length := by
    rcases ReflTransGen.cases_tail hchain with heq | ⟨i, -, c, hcp, -⟩
    · omega
    have := hcp.le_length
    omega
  rwa [hend] at hchain

theorem new_eq (hl : IsInversionList set.list) (which : Which) :
    ∃ ss, new set which = some ss ∧ Built set which ss := by
  obtain ⟨full, spanSet, hfull, hretain, hset, hcov⟩ := exists_spanSet hl
  have hf : spanSet.bmpSet = none := by simpa [isFrozen] using hset.thawed
  have hspans := ((spansWhile_of_thawed hset.list hf).congr hcov).spans
  obtain ⟨relevant, hrelevant, hall⟩ := mapM_eq_some (l := set.strings)
    fun t _ => isRelevant_eq hspans t
  rw [new, hfull]
  simp only [Option.bind_eq_bind, Option.bind_some, hretain, hrelevant]
  by_cases hsome : true ∈ relevant
  · obtain ⟨spanSet', hfrozen, hspans'⟩ := frozenFor_eq hset which
    have hspans' := (hspans'.congr hcov).spans
    set maxLength16 := (set.strings.map List.length).foldl max 0 with hmax
    obtain ⟨fwd, hfwd, hfwdAll⟩ := mapM_eq_some (l := set.strings)
      fun t _ => fwdByte_eq hspans' t
    obtain ⟨back, hback, hbackAll⟩ := mapM_eq_some (l := set.strings)
      fun t _ => backByte_eq hspans' t
    rw [if_pos hsome, hfrozen, Option.bind_some, hfwd, Option.bind_some, hback, Option.bind_some]
    refine ⟨_, rfl, hspans', rfl, fun _ t ht => length_le_maxLength16 ht, fun _ hwhich => ?_,
      fun _ hwhich => ?_, fun hno => ?_⟩
    · dsimp only
      rw [if_neg hwhich]
      exact hfwdAll.imp fun t byte h => h _
    · dsimp only
      rw [if_neg hwhich]
      exact hbackAll.imp fun t byte h => h _
    · -- a relevant string is not empty
      exfalso
      obtain ⟨t, ht, hpos, -⟩ := exists_of_forall₂ (List.Forall₂.flip hall) hsome
      have hle := length_le_maxLength16 ht
      rw [← hmax] at hle
      rw [needsStringSpanUTF16, bne_eq_false_iff_eq] at hno
      have := hpos rfl
      dsimp only at hno
      omega
  · rw [if_neg hsome]
    refine ⟨_, rfl, hspans, rfl, ?_, ?_, ?_, fun _ t ht => ?_⟩
    · intro h
      cases h
    · intro h
      cases h
    · intro h
      cases h
    · obtain ⟨b, hb, -, hchain⟩ := exists_of_forall₂ hall ht
      refine hchain ?_
      rw [← Bool.not_eq_true]
      rintro rfl
      exact hsome hb

theorem new_spanLengths {which : Which} {ss : UnicodeSetStringSpan} (hnew : new set which = some ss)
    (hneeds : ss.needsStringSpanUTF16 = true) (hwhich : which ≠ .backUtf16Contained) :
    set.strings.mapM (fwdByte ss.spanSet) = some ss.spanLengths := by
  rw [new] at hnew
  simp only [Option.bind_eq_bind, Option.bind_eq_some_iff] at hnew
  obtain ⟨full, -, spanSet, -, relevant, -, hnew⟩ := hnew
  by_cases hsome : true ∈ relevant
  · rw [if_pos hsome] at hnew
    simp only [Option.bind_eq_some_iff] at hnew
    obtain ⟨frozen, -, fwd, hfwd, back, -, hnew⟩ := hnew
    cases hnew
    rwa [if_neg hwhich]
  · rw [if_neg hsome] at hnew
    cases hnew
    cases hneeds

/-- `span` returns the largest position that steps from the start of the text reach, and `spanBack`
the smallest one from which they reach the end. A set without relevant strings does not need the
object: its code points alone give the same positions. -/
theorem stringSpan_reaches_farthest (hl : IsInversionList set.list) (which : Which) :
    ∃ ss, new set which = some ss ∧
      (ss.needsStringSpanUTF16 = true → ∀ s,
        (which ≠ .backUtf16Contained →
          ∃ n, ss.span s = some n ∧ IsGreatest {j | ReflTransGen (Consumes set s) 0 j} n) ∧
        (which ≠ .fwdUtf16Contained →
          ∃ n, ss.spanBack s = some n ∧
            IsLeast {i | ReflTransGen (Consumes set s) i s.length} n)) ∧
      (ss.needsStringSpanUTF16 = false → ∀ s,
        (∃ n, ss.spanSet.span s .contained = some n ∧
          IsGreatest {j | ReflTransGen (Consumes set s) 0 j} n) ∧
        ∃ n, ss.spanSet.spanBack s .contained = some n ∧
          IsLeast {i | ReflTransGen (Consumes set s) i s.length} n) := by
  obtain ⟨ss, hnew, hbuilt⟩ := new_eq hl which
  refine ⟨ss, hnew, fun hneeds s => ⟨fun hwhich => ?_, fun hwhich => ?_⟩, fun hno s => ?_⟩
  · exact span_eq hbuilt.spans hbuilt.strings (hbuilt.forward hneeds hwhich)
      (hbuilt.lengths hneeds) s
  · exact spanBack_eq hbuilt.spans hbuilt.strings (hbuilt.backward hneeds hwhich)
      (hbuilt.lengths hneeds) s
  · exact span_of_irrelevant hbuilt.spans (hbuilt.irrelevant hno) s

/-- The set `[a{ab}{bc}]` has a relevant string. -/
theorem stringSpan_reaches_farthest_abc :
    ∃ ss, new ⟨[0x61, 0x62, 0x110000], [[0x61, 0x62], [0x62, 0x63]], none, false⟩
        .fwdUtf16Contained = some ss ∧ ss.needsStringSpanUTF16 = true ∧
      ∀ s, ∃ n, ss.span s = some n ∧ IsGreatest {j | ReflTransGen
        (Consumes ⟨[0x61, 0x62, 0x110000], [[0x61, 0x62], [0x62, 0x63]], none, false⟩ s) 0 j}
          n := by
  have hl : IsInversionList [0x61, 0x62, 0x110000] := ⟨by decide, by decide, by decide⟩
  obtain ⟨ss, hnew, hspan, -⟩ := @stringSpan_reaches_farthest
    ⟨[0x61, 0x62, 0x110000], [[0x61, 0x62], [0x62, 0x63]], none, false⟩ hl .fwdUtf16Contained
  have hneeds : (new ⟨[0x61, 0x62, 0x110000], [[0x61, 0x62], [0x62, 0x63]], none, false⟩
      .fwdUtf16Contained).map needsStringSpanUTF16 = some true := by decide
  rw [hnew] at hneeds
  have hneeds := Option.some.inj hneeds
  exact ⟨ss, hnew, hneeds, fun s => (hspan hneeds s).1 (by decide)⟩

end Functions

end Icu.UnicodeSetStringSpan
