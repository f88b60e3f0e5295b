import Icu.UnicodeSet.StringSpan

/-! # The loop over strings finds the farthest position

The listed offsets are the ends of string matches that were found so far: each of them can be
reached, and none is lost. A relevant string is tried only where it overlaps with the code point
span before the position by its own limit.
-/

namespace Icu.UnicodeSetStringSpan

open Lib.Sweep Relation

def limitOf (d : Direction) (s16 : List UInt16) (overlap : Nat) : Option Nat :=
  if overlap ≥ longSpan then d.longOverlap s16 else some overlap

/-- The functions of the loop, for contained code points `cp` and for the matches of strings. -/
structure Direction.Describes (d : Direction) (Bd : Nat → Prop) (cp : Nat → Nat → Prop)
    (Match : List UInt16 → Nat → Prop) : Prop where
  pieces : Pieces Bd cp
  zero : Bd 0
  cp_le : ∀ i j, cp i j → j ≤ d.length
  span : ∀ pos, Bd pos → pos ≤ d.length →
    ∃ n, d.span pos = some n ∧ ReflTransGen cp pos (pos + n) ∧ ∀ j, ¬ cp (pos + n) j
  one : ∀ pos, Bd pos → pos < d.length → ∃ n, d.one pos = some n ∧
    if n > 0 then n ≤ 2 ∧ cp pos (pos + n.toNat) else ∀ j, ¬ cp pos j
  isMatch : ∀ start s16, 0 < s16.length → start + s16.length ≤ d.length →
    ∃ found, d.isMatch start s16 = some found ∧ (found = true ↔ Match s16 start)
  match_left : ∀ s16 start, Match s16 start → Bd start
  match_right : ∀ s16 start, Match s16 start → Bd (start + s16.length)
  match_le : ∀ s16 start, Match s16 start → start + s16.length ≤ d.length

/-- The byte of an irrelevant string says that its matches are code points. That of a relevant one
limits the overlap of its matches with a span. -/
structure GoodByte (d : Direction) (Bd : Nat → Prop) (cp : Nat → Nat → Prop)
    (Match : List UInt16 → Nat → Prop) (s16 : List UInt16) (overlap : Nat) : Prop where
  irrelevant : overlap = allCpContained →
    ∀ start, Match s16 start → ReflTransGen cp start (start + s16.length)
  relevant : overlap ≠ allCpContained → ∃ limit, limitOf d s16 overlap = some limit ∧
    limit < s16.length ∧ ∀ start pos, Match s16 start → Bd pos → start ≤ pos →
      pos < start + s16.length → ReflTransGen cp start pos → pos ≤ start + limit

/-- From `i` to `j` by a match of a relevant string. -/
def Relevant (strings : List (List UInt16 × Nat)) (Match : List UInt16 → Nat → Prop)
    (i j : Nat) : Prop :=
  ∃ p ∈ strings, p.2 ≠ allCpContained ∧ Match p.1 i ∧ j = i + p.1.length

/-! ## Trying the strings at one position -/

/-- New offsets are the ends of matches that begin at most `reach` units before `pos`. -/
structure Extends (R : Nat → Nat → Prop) (pos reach rest : Nat) (o o' : OffsetList) : Prop where
  valid : o'.Valid
  length : o'.list.length = o.list.length
  kept : ∀ k, o.Has k → o'.Has k
  sound : ∀ k, o'.Has k → o.Has k ∨
    k < rest ∧ ∃ i, i ≤ pos ∧ pos ≤ i + reach ∧ R i (pos + k)
  complete : ∀ i k, 1 ≤ k → i ≤ pos → pos ≤ i + reach → R i (pos + k) → o'.Has k

section Strings

variable {d : Direction} {Bd : Nat → Prop} {cp : Nat → Nat → Prop} {s16 : List UInt16}
  {overlap : Nat}
variable {Match : List UInt16 → Nat → Prop} {pos : Nat} {o : OffsetList}

def Single (Match : List UInt16 → Nat → Prop) (s16 : List UInt16) (i j : Nat) : Prop :=
  Match s16 i ∧ j = i + s16.length

theorem tryOverlap_eq (h : d.Describes Bd cp Match)
    (hv : o.Valid) (hcap : s16.length ≤ o.list.length) (hlt : overlap < s16.length)
    (hpos : overlap ≤ pos) (hle : pos ≤ d.length) : ∃ r, d.tryOverlap s16 pos overlap o = some r ∧
      match r with
      | .tooLong => d.length - pos < s16.length - overlap
      | .reached => Match s16 (pos - overlap) ∧ pos - overlap + s16.length = d.length
      | .next o' => o'.Valid ∧ o'.list.length = o.list.length ∧ (∀ k, o.Has k → o'.Has k) ∧
          (∀ k, o'.Has k → o.Has k ∨ k < d.length - pos ∧ k = s16.length - overlap ∧
            Match s16 (pos - overlap)) ∧
          (Match s16 (pos - overlap) → o'.Has (s16.length - overlap)) := by
  rw [Direction.tryOverlap]
  by_cases hlong : s16.length - overlap > d.length - pos
  · rw [if_pos hlong]
    exact ⟨_, rfl, hlong⟩
  rw [if_neg hlong]
  obtain ⟨flag, hcontains, hflag⟩ :=
    OffsetList.containsOffset_eq hv (k := s16.length - overlap) (by omega) (by omega)
  obtain ⟨found, hmatch, hfound⟩ := h.isMatch (pos - overlap) s16 (by omega) (by omega)
  simp only [hcontains, hmatch, Option.bind_eq_bind, Option.bind_some]
  cases flag with
  | true =>
    refine ⟨.next o, rfl, hv, rfl, fun _ hk => hk, fun _ hk => .inl hk, fun _ => hflag.mp rfl⟩
  | false =>
    have hno : ¬ o.Has (s16.length - overlap) := fun hhas => by cases hflag.mpr hhas
    cases found with
    | false =>
      refine ⟨.next o, rfl, hv, rfl, fun _ hk => hk, fun _ hk => .inl hk, fun hm => ?_⟩
      cases hfound.mpr hm
    | true =>
      have hm := hfound.mp rfl
      by_cases hend : s16.length - overlap = d.length - pos
      · refine ⟨.reached, ?_, hm, by omega⟩
        simp [hend]
      obtain ⟨o', hadd, hv', hlength, hhas⟩ :=
        OffsetList.addOffset_eq hv (by omega) (by omega) hno
      refine ⟨.next o', ?_, hv', hlength, fun k hk => (hhas k).mpr (.inl hk), fun k hk => ?_,
        fun _ => (hhas _).mpr (.inr rfl)⟩
      · simp [hend, hadd]
      · exact ((hhas k).mp hk).imp_right fun heq => ⟨by omega, heq, hm⟩

/-- The end was reached, or the list was extended. -/
def StringsResult (R : Nat → Nat → Prop) (N pos reach : Nat) (o : OffsetList) :
    Option OffsetList → Prop
  | none => ∃ i, i ≤ pos ∧ pos ≤ i + reach ∧ R i N
  | some o' => Extends R pos reach (N - pos) o o'

theorem overlapLoop_eq (h : d.Describes Bd cp Match) (hle : pos ≤ d.length) :
    ∀ (overlap : Nat) (o : OffsetList), o.Valid → s16.length ≤ o.list.length →
      overlap < s16.length → overlap ≤ pos →
      ∃ r, d.overlapLoop s16 pos overlap o = some r ∧
        StringsResult (Single Match s16) d.length pos overlap o r := by
  intro overlap
  induction overlap with
  | zero =>
    intro o hv hcap hlt hpos
    obtain ⟨r, htry, hr⟩ := tryOverlap_eq h hv hcap hlt hpos hle
    rw [Direction.overlapLoop, htry]
    cases r with
    | tooLong =>
      refine ⟨some o, rfl, hv, rfl, fun _ hk => hk, fun _ hk => .inl hk, ?_⟩
      rintro i k - hi hreach ⟨hm, -⟩
      have := h.match_le s16 i hm
      omega
    | reached => exact ⟨none, rfl, pos, Nat.le_refl _, Nat.le_refl _, hr.1, hr.2.symm⟩
    | next o' =>
      obtain ⟨hv', hlength, hkept, hsound, hcomplete⟩ := hr
      refine ⟨some o', rfl, hv', hlength, hkept, fun k hk => ?_, ?_⟩
      · refine (hsound k hk).imp_right ?_
        rintro ⟨hrest, rfl, hm⟩
        exact ⟨hrest, pos, Nat.le_refl _, Nat.le_refl _, hm, rfl⟩
      rintro i k - hi hreach ⟨hm, hk⟩
      obtain rfl : i = pos := by omega
      obtain rfl : k = s16.length := by omega
      exact hcomplete hm
  | succ overlap ih =>
    intro o hv hcap hlt hpos
    obtain ⟨r, htry, hr⟩ := tryOverlap_eq h hv hcap hlt hpos hle
    rw [Direction.overlapLoop, htry]
    cases r with
    | tooLong =>
      refine ⟨some o, rfl, hv, rfl, fun _ hk => hk, fun _ hk => .inl hk, ?_⟩
      rintro i k - hi hreach ⟨hm, -⟩
      have := h.match_le s16 i hm
      omega
    | reached => exact ⟨none, rfl, pos - (overlap + 1), by omega, by omega, hr.1, hr.2.symm⟩
    | next o' =>
      obtain ⟨hv', hlength, hkept, hsound, hcomplete⟩ := hr
      obtain ⟨r, hloop, hr⟩ := ih o' hv' (by omega) (by omega) (by omega)
      refine ⟨r, hloop, ?_⟩
      cases r with
      | none =>
        obtain ⟨i, hi, hreach, hR⟩ := hr
        exact ⟨i, hi, by omega, hR⟩
      | some o'' =>
        refine ⟨hr.valid, hr.length.trans hlength, fun k hk => hr.kept k (hkept k hk),
          fun k hk => ?_, fun i k h1 hi hreach hR => ?_⟩
        · rcases hr.sound k hk with hk' | ⟨hrest, i, hi, hreach, hR⟩
          · refine (hsound k hk').imp_right ?_
            rintro ⟨hrest, rfl, hm⟩
            exact ⟨hrest, pos - (overlap + 1), by omega, by omega, hm, by omega⟩
          · exact .inr ⟨hrest, i, hi, by omega, hR⟩
        by_cases hfirst : pos ≤ i + overlap
        · exact hr.complete i k h1 hi hfirst hR
        obtain ⟨hm, hk⟩ := hR
        obtain rfl : i = pos - (overlap + 1) := by omega
        obtain rfl : k = s16.length - (overlap + 1) := by omega
        exact hr.kept _ (hcomplete hm)

structure AfterSpan (Bd : Nat → Prop) (cp : Nat → Nat → Prop) (pos spanLength : Nat) : Prop where
  bound : Bd pos
  le : spanLength ≤ pos
  chain : ReflTransGen cp (pos - spanLength) pos

theorem stringsLoop_cons {limit spanLength : Nat}
    {strings : List (List UInt16 × Nat)} (hcp : overlap ≠ allCpContained)
    (hlimit : limitOf d s16 overlap = some limit) :
    d.stringsLoop pos spanLength ((s16, overlap) :: strings) o =
      (d.overlapLoop s16 pos (min limit spanLength) o).bind fun r =>
        match r with
        | none => some none
        | some offsets => d.stringsLoop pos spanLength strings offsets := by
  rw [Direction.stringsLoop, if_neg hcp]
  rw [limitOf] at hlimit
  split at hlimit
  case isTrue hlong =>
    rw [if_pos hlong, hlimit]
    rfl
  case isFalse hshort =>
    obtain rfl := Option.some.inj hlimit
    rw [if_neg hshort]
    rfl

theorem stringsLoop_eq (h : d.Describes Bd cp Match) {spanLength : Nat}
    (hspan : AfterSpan Bd cp pos spanLength) (hle : pos ≤ d.length) :
    ∀ (strings : List (List UInt16 × Nat)) (o : OffsetList),
      (∀ p ∈ strings, GoodByte d Bd cp Match p.1 p.2 ∧ p.1.length ≤ o.list.length) → o.Valid →
      ∃ r, d.stringsLoop pos spanLength strings o = some r ∧
        StringsResult (Relevant strings Match) d.length pos spanLength o r := by
  intro strings
  induction strings with
  | nil =>
    intro o hall hv
    refine ⟨some o, rfl, hv, rfl, fun _ hk => hk, fun _ hk => .inl hk, ?_⟩
    rintro i k - - - ⟨p, hp, -⟩
    cases hp
  | cons p strings ih =>
    obtain ⟨s16, overlap⟩ := p
    intro o hall hv
    obtain ⟨hgood, hcap⟩ := hall _ List.mem_cons_self
    have hmem : ∀ {i j : Nat}, Relevant strings Match i j →
        Relevant ((s16, overlap) :: strings) Match i j :=
      fun ⟨p, hp, hR⟩ => ⟨p, List.mem_cons_of_mem _ hp, hR⟩
    by_cases hcp : overlap = allCpContained
    · -- an irrelevant string
      rw [Direction.stringsLoop, if_pos hcp]
      obtain ⟨r, hloop, hr⟩ := ih o (fun p hp => hall p (List.mem_cons_of_mem _ hp)) hv
      refine ⟨r, hloop, ?_⟩
      cases r with
      | none =>
        obtain ⟨i, hi, hreach, hR⟩ := hr
        exact ⟨i, hi, hreach, hmem hR⟩
      | some o' =>
        refine ⟨hr.valid, hr.length, hr.kept, fun k hk => (hr.sound k hk).imp_right ?_, ?_⟩
        · rintro ⟨hrest, i, hi, hreach, hR⟩
          exact ⟨hrest, i, hi, hreach, hmem hR⟩
        rintro i k h1 hi hreach ⟨p, hp, hne, hR⟩
        rcases List.mem_cons.mp hp with rfl | hp
        · exact absurd hcp hne
        · exact hr.complete i k h1 hi hreach ⟨p, hp, hne, hR⟩
    obtain ⟨limit, hlimit, hlt, hbound⟩ := hgood.relevant hcp
    dsimp only at hcap hlt hbound hlimit
    have hspanLe := hspan.le
    obtain ⟨r, hone, hr⟩ := overlapLoop_eq h hle (min limit spanLength) o hv hcap
      (by omega) (by omega)
    rw [stringsLoop_cons hcp hlimit, hone, Option.bind_some]
    cases r with
    | none =>
      obtain ⟨i, hi, hreach, hR⟩ := hr
      exact ⟨none, rfl, i, hi, by omega, _, List.mem_cons_self, hcp, hR⟩
    | some o' =>
      obtain ⟨r', hloop, hr'⟩ := ih o'
        (fun p hp => by
          rw [hr.length]
          exact hall p (List.mem_cons_of_mem _ hp)) hr.valid
      refine ⟨r', hloop, ?_⟩
      cases r' with
      | none =>
        obtain ⟨i, hi, hreach, hR⟩ := hr'
        exact ⟨i, hi, hreach, hmem hR⟩
      | some o'' =>
        refine ⟨hr'.valid, hr'.length.trans hr.length, fun k hk => hr'.kept k (hr.kept k hk),
          fun k hk => ?_, ?_⟩
        · rcases hr'.sound k hk with hk' | ⟨hrest, i, hi, hreach, hR⟩
          · refine (hr.sound k hk').imp_right ?_
            rintro ⟨hrest, i, hi, hreach, hR⟩
            exact ⟨hrest, i, hi, by omega, _, List.mem_cons_self, hcp, hR⟩
          · exact .inr ⟨hrest, i, hi, hreach, hmem hR⟩
        rintro i k h1 hi hreach ⟨p, hp, hne, hm, hk⟩
        rcases List.mem_cons.mp hp with rfl | hp
        · -- the span goes from the start of the match to `pos`
          have hchain := (h.pieces.split hspan.chain (h.match_left _ i hm)
            (by omega) hi).2
          have := hbound i pos hm hspan.bound hi (by dsimp only at hk; omega) hchain
          exact hr'.kept k (hr.complete i k h1 hi (by omega) ⟨hm, hk⟩)
        · exact hr'.complete i k h1 hi hreach ⟨p, hp, hne, hm, hk⟩

end Strings

section Loop

variable {d : Direction} {Bd : Nat → Prop} {cp : Nat → Nat → Prop}
variable {Match : List UInt16 → Nat → Prop} {strings : List (List UInt16 × Nat)}

/-- One contained code point, or one relevant string. -/
def LoopStep (strings : List (List UInt16 × Nat)) (cp : Nat → Nat → Prop)
    (Match : List UInt16 → Nat → Prop) (i j : Nat) : Prop :=
  cp i j ∨ Relevant strings Match i j

/-- The strings with bytes, and lists that are long enough for their offsets. -/
structure GoodStrings (d : Direction) (Bd : Nat → Prop) (cp : Nat → Nat → Prop)
    (Match : List UInt16 → Nat → Prop) (strings : List (List UInt16 × Nat)) (capacity : Nat) :
    Prop where
  bytes : ∀ p ∈ strings, GoodByte d Bd cp Match p.1 p.2
  lengths : ∀ p ∈ strings, p.1.length ≤ capacity
  sixteen : 16 ≤ capacity

namespace GoodStrings

variable {capacity : Nat} (hs : GoodStrings d Bd cp Match strings capacity)
variable (h : d.Describes Bd cp Match)

include hs h

theorem lt_of_step (i j : Nat) (hstep : LoopStep strings cp Match i j) : i < j := by
  rcases hstep with hcp | ⟨p, hp, hne, -, rfl⟩
  · exact h.pieces.lt i j hcp
  obtain ⟨limit, -, hlt, -⟩ := (hs.bytes p hp).relevant hne
  omega

omit hs in
theorem le_of_step (i j : Nat) (hstep : LoopStep strings cp Match i j) : j ≤ d.length := by
  rcases hstep with hcp | ⟨p, hp, hne, hm, rfl⟩
  · exact h.cp_le i j hcp
  · exact h.match_le p.1 i hm

omit hs in
theorem bound_of_reach {j : Nat} (hreach : ReflTransGen (LoopStep strings cp Match) 0 j) :
    Bd j := by
  rcases ReflTransGen.cases_tail hreach with rfl | ⟨i, -, hcp | ⟨p, hp, hne, hm, rfl⟩⟩
  · exact h.zero
  · exact h.pieces.right i j hcp
  · exact h.match_right p.1 i hm

omit hs in
theorem isGreatest_length (hreach : ReflTransGen (LoopStep strings cp Match) 0 d.length) :
    IsGreatest {j | ReflTransGen (LoopStep strings cp Match) 0 j} d.length := by
  refine ⟨hreach, fun j hj => ?_⟩
  rcases ReflTransGen.cases_tail hj with rfl | ⟨i, -, hstep⟩
  · exact Nat.zero_le _
  · exact le_of_step h i j hstep

end GoodStrings

/-- At the head of the loop: the offsets can be reached, and no step over the position is lost but
those that begin in the span before it. -/
structure LoopInv (d : Direction) (Bd : Nat → Prop) (cp : Nat → Nat → Prop)
    (Match : List UInt16 → Nat → Prop) (strings : List (List UInt16 × Nat)) (capacity : Nat)
    (pos spanLength : Nat) (o : OffsetList) : Prop where
  afterSpan : AfterSpan Bd cp pos spanLength
  reach : ReflTransGen (LoopStep strings cp Match) 0 (pos - spanLength)
  lt : pos < d.length
  stuck : spanLength ≠ 0 ∨ pos = 0 → ∀ j, ¬ cp pos j
  valid : o.Valid
  capacity : o.list.length = capacity
  ahead : ∀ k, o.Has k → ReflTransGen (LoopStep strings cp Match) 0 (pos + k) ∧ pos + k < d.length
  crossing : ∀ i j, ReflTransGen (LoopStep strings cp Match) 0 i → i ≤ pos →
    LoopStep strings cp Match i j → pos < j → pos ≤ i + spanLength ∨ o.Has (j - pos)

namespace LoopInv

variable {capacity pos spanLength : Nat} {o o' : OffsetList}

theorem reach_pos (hi : LoopInv d Bd cp Match strings capacity pos spanLength o) :
    ReflTransGen (LoopStep strings cp Match) 0 pos :=
  hi.reach.trans (ReflTransGen.mono (fun _ _ hcp => .inl hcp) _ _ hi.afterSpan.chain)

/-- After trying the strings, the steps over the position end at an offset, or they are the next
code point. -/
structure Tried (d : Direction) (cp : Nat → Nat → Prop) (Match : List UInt16 → Nat → Prop)
    (strings : List (List UInt16 × Nat)) (capacity pos : Nat) (o : OffsetList) : Prop where
  valid : o.Valid
  capacity : o.list.length = capacity
  ahead : ∀ k, o.Has k → ReflTransGen (LoopStep strings cp Match) 0 (pos + k) ∧ pos + k < d.length
  crossing : ∀ i j, ReflTransGen (LoopStep strings cp Match) 0 i → i ≤ pos →
    LoopStep strings cp Match i j → pos < j → o.Has (j - pos) ∨ i = pos ∧ cp pos j

theorem tried (h : d.Describes Bd cp Match)
    (hi : LoopInv d Bd cp Match strings capacity pos spanLength o)
    (he : Extends (Relevant strings Match) pos spanLength (d.length - pos) o o') :
    Tried d cp Match strings capacity pos o' where
  valid := he.valid
  capacity := he.length.trans hi.capacity
  ahead := by
    intro k hk
    rcases he.sound k hk with hk | ⟨hrest, i, hip, hreach, hR⟩
    · exact hi.ahead k hk
    -- the match begins inside of the span
    have hleft : Bd i := by
      obtain ⟨p, -, -, hm, -⟩ := hR
      exact h.match_left p.1 i hm
    have hchain := (h.pieces.split hi.afterSpan.chain hleft (by omega) hip).1
    have hto := hi.reach.trans (ReflTransGen.mono (fun _ _ hcp => Or.inl hcp) _ _ hchain)
    exact ⟨hto.tail (.inr hR), by omega⟩
  crossing := by
    intro i j hreach hip hstep hj
    rcases hstep with hcp | hR
    · right
      rcases Nat.eq_or_lt_of_le hip with rfl | hlt
      · exact ⟨rfl, hcp⟩
      have := h.pieces.next i j pos hcp hi.afterSpan.bound hlt
      omega
    left
    rcases hi.crossing i j hreach hip (.inr hR) hj with hnear | hhas
    · refine he.complete i (j - pos) (by omega) hip hnear ?_
      rw [Nat.add_sub_cancel' (Nat.le_of_lt hj)]
      exact hR
    · exact he.kept _ hhas

namespace Tried

variable (ht : Tried d cp Match strings capacity pos o) {n : Nat}

include ht

theorem frontier : Frontier (LoopStep strings cp Match) pos fun j => o.Has (j - pos) ∨ cp pos j :=
  fun i j hreach hip hstep hj => (ht.crossing i j hreach hip hstep hj).imp_right And.right

theorem isGreatest (h : d.Describes Bd cp Match) (hs : GoodStrings d Bd cp Match strings capacity)
    (hreach : ReflTransGen (LoopStep strings cp Match) 0 pos) (hempty : o.isEmpty = true)
    (hstuck : ∀ j, ¬ cp pos j) :
    IsGreatest {j | ReflTransGen (LoopStep strings cp Match) 0 j} pos := by
  refine Frontier.isGreatest (hs.lt_of_step h) (fun i j hri hip hstep hj => ?_) hreach
  rcases ht.crossing i j hri hip hstep hj with hhas | ⟨-, hcp⟩
  · exact (OffsetList.isEmpty_iff ht.valid).mp hempty _ hhas
  · exact hstuck j hcp

theorem advance (h : d.Describes Bd cp Match) (hs : GoodStrings d Bd cp Match strings capacity)
    {o' : OffsetList} (hn : 0 < n)
    (hreach : ReflTransGen (LoopStep strings cp Match) 0 (pos + n)) (hlt : pos + n < d.length)
    (hfirst : ∀ k, o.Has k → n ≤ k) (hcp : ∀ j, cp pos j → j = pos + n) (hv : o'.Valid)
    (hlength : o'.list.length = o.list.length) (hhas : ∀ j, o'.Has j ↔ 1 ≤ j ∧ o.Has (j + n)) :
    LoopInv d Bd cp Match strings capacity (pos + n) 0 o' where
  afterSpan := ⟨GoodStrings.bound_of_reach h hreach, Nat.zero_le _, .refl⟩
  reach := hreach
  lt := hlt
  stuck := by omega
  valid := hv
  capacity := hlength.trans ht.capacity
  ahead := by
    intro k hk
    have := ht.ahead (k + n) ((hhas k).mp hk).2
    rwa [Nat.add_assoc, Nat.add_comm n k]
  crossing := by
    intro i j hri hip hstep hj
    have hahead : ∀ k, o.Has (k - pos) ∨ cp pos k → pos < k → pos + n ≤ k := by
      rintro k (hk | hk) hlt'
      · have := hfirst _ hk
        omega
      · exact Nat.le_of_eq (hcp k hk).symm
    rcases ht.frontier.advance (hs.lt_of_step h) hahead hri hip hstep hj (by omega)
      with rfl | hk | hk
    · exact .inl (Nat.le_refl _)
    · right
      rw [hhas, show j - (pos + n) + n = j - pos by omega]
      exact ⟨by omega, hk⟩
    · have := hcp j hk
      omega

theorem span (h : d.Describes Bd cp Match)
    (hreach : ReflTransGen (LoopStep strings cp Match) 0 pos) (hempty : o.isEmpty = true)
    (hchain : ReflTransGen cp pos (pos + n)) (hstuck : ∀ j, ¬ cp (pos + n) j)
    (hlt : pos + n < d.length) : LoopInv d Bd cp Match strings capacity (pos + n) n o where
  afterSpan := by
    refine ⟨?_, Nat.le_add_left _ _, by rwa [Nat.add_sub_cancel]⟩
    exact GoodStrings.bound_of_reach h
      (hreach.trans (ReflTransGen.mono (fun _ _ hcp => Or.inl hcp) _ _ hchain))
  reach := by rwa [Nat.add_sub_cancel]
  lt := hlt
  stuck := fun _ => hstuck
  valid := ht.valid
  capacity := ht.capacity
  ahead := fun k hk => absurd hk ((OffsetList.isEmpty_iff ht.valid).mp hempty k)
  crossing := by
    intro i j hri hip hstep hj
    left
    by_contra hlt'
    rcases ht.crossing i j hri (by omega) hstep (by omega) with hhas | ⟨rfl, -⟩
    · exact (OffsetList.isEmpty_iff ht.valid).mp hempty _ hhas
    · omega

end Tried

end LoopInv

open LoopInv in
theorem loop_eq (h : d.Describes Bd cp Match) {capacity : Nat}
    (hs : GoodStrings d Bd cp Match strings capacity) :
    ∀ (fuel pos spanLength : Nat) (o : OffsetList),
      LoopInv d Bd cp Match strings capacity pos spanLength o → d.length - pos < fuel →
      ∃ n, d.loop strings fuel pos spanLength o = some n ∧
        IsGreatest {j | ReflTransGen (LoopStep strings cp Match) 0 j} n := by
  intro fuel
  induction fuel with
  | zero => omega
  | succ fuel ih =>
    intro pos spanLength o hi hfuel
    have hlt := hi.lt
    obtain ⟨r, hstrings, hr⟩ := stringsLoop_eq h hi.afterSpan (Nat.le_of_lt hlt) strings o
      (fun p hp => ⟨hs.bytes p hp, by rw [hi.capacity]; exact hs.lengths p hp⟩) hi.valid
    rw [Direction.loop, hstrings]
    cases r with
    | none =>
      obtain ⟨i, hip, hreach, hR⟩ := hr
      refine ⟨d.length, rfl, GoodStrings.isGreatest_length h ?_⟩
      have hleft : Bd i := by
        obtain ⟨p, -, -, hm, -⟩ := hR
        exact h.match_left p.1 i hm
      have hchain := (h.pieces.split hi.afterSpan.chain hleft (by omega) hip).1
      exact (hi.reach.trans (ReflTransGen.mono (fun _ _ hcp => Or.inl hcp) _ _ hchain)).tail
        (.inr hR)
    | some o' =>
      have ht := hi.tried h hr
      have hrpos := hi.reach_pos
      -- without a next code point, the loop goes on at the least offset
      have hpop : o'.isEmpty = false → (∀ j, ¬ cp pos j) →
          ∃ n, (o'.popMinimum.bind fun popped =>
              d.loop strings fuel (pos + popped.1) 0 popped.2) = some n ∧
            IsGreatest {j | ReflTransGen (LoopStep strings cp Match) 0 j} n := by
        intro hne hstuck
        obtain ⟨n, o'', hpop, hhas, hleast, hv, hlength, hiff⟩ :=
          OffsetList.popMinimum_eq ht.valid hne
        have hinv := ht.advance h hs hhas.1 (ht.ahead n hhas).1 (ht.ahead n hhas).2
          hleast (fun j hcp => absurd hcp (hstuck j)) hv hlength hiff
        have h1 := hhas.1
        obtain ⟨m, hloop, hm⟩ := ih (pos + n) 0 o'' hinv (by omega)
        refine ⟨m, ?_, hm⟩
        rw [hpop]
        exact hloop
      simp only [Option.bind_eq_bind, Option.bind_some]
      by_cases hspan : spanLength ≠ 0 ∨ pos = 0
      · rw [if_pos hspan]
        cases hempty : o'.isEmpty with
        | true => exact ⟨pos, rfl, ht.isGreatest h hs hrpos hempty (hi.stuck hspan)⟩
        | false =>
          rw [if_neg Bool.false_ne_true]
          exact hpop hempty (hi.stuck hspan)
      rw [if_neg hspan]
      cases hempty : o'.isEmpty with
      | true =>
        obtain ⟨n, hn, hchain, hstuck⟩ := h.span pos hi.afterSpan.bound (Nat.le_of_lt hlt)
        have hrn := hrpos.trans
          (ReflTransGen.mono (fun _ _ hcp => Or.inl hcp) _ _ hchain)
        have hbound : pos + n ≤ d.length := by
          rcases ReflTransGen.cases_tail hchain with heq | ⟨i, -, hcp⟩
          · omega
          · exact h.cp_le _ _ hcp
        rw [if_pos rfl, hn, Option.bind_some]
        by_cases hstop : n = d.length - pos ∨ n = 0
        · rw [if_pos hstop]
          refine ⟨pos + n, rfl, ?_⟩
          rcases hstop with hrest | rfl
          · have hend : pos + n = d.length := by omega
            rw [hend] at hrn ⊢
            exact GoodStrings.isGreatest_length h hrn
          · exact ht.isGreatest h hs hrpos hempty hstuck
        · rw [if_neg hstop]
          exact ih (pos + n) n o' (ht.span h hrpos hempty hchain hstuck (by omega)) (by omega)
      | false =>
        obtain ⟨n, hn, hone⟩ := h.one pos hi.afterSpan.bound hlt
        rw [if_neg Bool.false_ne_true, hn, Option.bind_some]
        by_cases hpositive : n > 0
        · rw [if_pos hpositive] at hone ⊢
          obtain ⟨htwo, hcp⟩ := hone
          have hrn := hrpos.tail (.inl hcp)
          by_cases hrest : n.toNat = d.length - pos
          · rw [if_pos hrest]
            have hend : pos + n.toNat = d.length := by omega
            rw [hend] at hrn
            exact ⟨d.length, rfl, GoodStrings.isGreatest_length h hrn⟩
          rw [if_neg hrest]
          have hleast : ∀ k, o'.Has k → n.toNat ≤ k := by
            intro k hk
            have hbound := GoodStrings.bound_of_reach h (ht.ahead k hk).1
            have h1 := hk.1
            have := h.pieces.next pos (pos + n.toNat) (pos + k) hcp hbound (by omega)
            omega
          have hsixteen := hs.sixteen
          have hcap := ht.capacity
          obtain ⟨o'', hshift, hv, hlength, hiff⟩ := OffsetList.shift_eq ht.valid
            (d := n.toNat) (by omega) (by omega) hleast
          have hle := h.cp_le _ _ hcp
          have hinv := ht.advance h hs (by omega) hrn (by omega) hleast
            (fun j hj => h.pieces.unique hj hcp) hv hlength hiff
          rw [hshift, Option.bind_some]
          exact ih (pos + n.toNat) 0 o'' hinv (by omega)
        · rw [if_neg hpositive] at hone ⊢
          exact hpop hempty hone

theorem run_eq (h : d.Describes Bd cp Match) {maxLength16 : Nat}
    (hbytes : ∀ p ∈ strings, GoodByte d Bd cp Match p.1 p.2)
    (hlengths : ∀ p ∈ strings, p.1.length ≤ maxLength16) : ∃ n, d.run strings maxLength16 = some n ∧
      IsGreatest {j | ReflTransGen (LoopStep strings cp Match) 0 j} n := by
  obtain ⟨hv, hempty, hcapacity, hsixteen⟩ := OffsetList.valid_setMaxLength maxLength16
  obtain ⟨n, hn, hchain, hstuck⟩ := h.span 0 h.zero (Nat.zero_le _)
  rw [Nat.zero_add] at hchain hstuck
  have hreach : ReflTransGen (LoopStep strings cp Match) 0 n :=
    ReflTransGen.mono (fun _ _ hcp => Or.inl hcp) _ _ hchain
  have hle : n ≤ d.length := by
    rcases ReflTransGen.cases_tail hchain with rfl | ⟨i, -, hcp⟩
    · exact Nat.zero_le _
    · exact h.cp_le _ _ hcp
  rw [Direction.run, hn, Option.bind_eq_bind, Option.bind_some]
  by_cases hend : n = d.length
  · rw [if_pos hend]
    subst hend
    exact ⟨d.length, rfl, GoodStrings.isGreatest_length h hreach⟩
  rw [if_neg hend]
  refine loop_eq h ⟨hbytes, fun p hp => (hlengths p hp).trans hcapacity, hsixteen⟩ _ _ _ _ ?_
    (by omega)
  exact {
    afterSpan := ⟨GoodStrings.bound_of_reach h hreach, Nat.le_refl _, by rwa [Nat.sub_self]⟩
    reach := by
      rw [Nat.sub_self]
    lt := by omega
    stuck := fun _ => hstuck
    valid := hv
    capacity := rfl
    ahead := fun k hk => absurd hk (hempty k)
    crossing := fun i j _ _ _ _ => .inl (Nat.le_add_left _ _) }

end Loop

end Icu.UnicodeSetStringSpan
