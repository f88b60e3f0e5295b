import Icu.Lib.LongestStep
import Icu.UnicodeSet.StringSpanProof

/-! # `USET_SPAN_SIMPLE`

`UnicodeSetStringSpan::span` with the longest match at each position. The loop goes over a whole
code point span first, and then it looks back for the string matches that reach the end of the span.
It continues after the longest one of those that start first.
-/

namespace Icu.UnicodeSetStringSpan

open UnicodeSet Utf16 Lib Lib.Sweep Lib.LongestStep Relation

variable {s16 : List UInt16} {overlap : Nat}

structure Best where
  maxInc : Nat
  maxOverlap : Nat
  deriving DecidableEq

namespace Direction

variable (d : Direction)

/-- The overlaps of one string, downward. Below 0 there are none. -/
def simpleOverlapLoop (s16 : List UInt16) (pos : Nat) : Nat → Best → Option Best
  | overlap, best =>
    let rest := d.length - pos
    let inc := s16.length - overlap
    if inc > rest ∨ overlap < best.maxOverlap then some best
    else do
      -- try to match if the string is longer or starts earlier
      let found ←
        if overlap > best.maxOverlap ∨ inc > best.maxInc then d.isMatch (pos - overlap) s16
        else some false
      if found then return ⟨inc, overlap⟩
      else
        match overlap with
        | 0 => return best
        | overlap + 1 => simpleOverlapLoop s16 pos overlap best

/-- The overlap for a byte: a string of contained code points may match fully inside the span. -/
def simpleOverlap (s16 : List UInt16) (overlap : Nat) : Nat :=
  if overlap ≥ longSpan then s16.length else overlap

def simpleStringsLoop (pos spanLength : Nat) : List (List UInt16 × Nat) → Best → Option Best
  | [], best => some best
  | (s16, overlap) :: strings, best => do
    let best ← d.simpleOverlapLoop s16 pos (min (simpleOverlap s16 overlap) spanLength) best
    simpleStringsLoop pos spanLength strings best

/-- `for(;;)`. The offset list stays empty. -/
def simpleLoop (strings : List (List UInt16 × Nat)) : Nat → Nat → Nat → Option Nat
  | 0, _, _ => none
  | fuel + 1, pos, spanLength => do
    let best ← d.simpleStringsLoop pos spanLength strings ⟨0, 0⟩
    if best.maxInc ≠ 0 ∨ best.maxOverlap ≠ 0 then
      -- continue after the string match
      if d.length - (pos + best.maxInc) = 0 then return d.length
      else simpleLoop strings fuel (pos + best.maxInc) 0
    else if spanLength ≠ 0 ∨ pos = 0 then return pos
    else
      let spanLength ← d.span pos
      if spanLength = d.length - pos ∨ spanLength = 0 then return pos + spanLength
      else simpleLoop strings fuel (pos + spanLength) spanLength

def simpleRun (strings : List (List UInt16 × Nat)) : Option Nat := do
  let spanLength ← d.span 0
  if spanLength = d.length then return d.length
  else d.simpleLoop strings (2 * d.length + 2) spanLength spanLength

end Direction

/-- `span(s, length, USET_SPAN_SIMPLE)` -/
def spanSimple (stringSpan : UnicodeSetStringSpan) (s : List UInt16) : Option Nat :=
  (stringSpan.forward s).simpleRun (stringSpan.strings.zip stringSpan.spanLengths)

/-! ## The best match -/

/-- A match that starts earlier, or that starts at the same position and is longer. -/
def Best.le (b b' : Best) : Prop :=
  b.maxOverlap < b'.maxOverlap ∨ b.maxOverlap = b'.maxOverlap ∧ b.maxInc ≤ b'.maxInc

theorem Best.le_refl (b : Best) : b.le b := Or.inr ⟨rfl, Nat.le_refl _⟩

theorem Best.le_trans {a b c : Best} (hab : a.le b) (hbc : b.le c) : a.le c := by
  unfold Best.le at *
  omega

/-- A string matches with the overlap and the increment of `b`. -/
def Reaches (Match : List UInt16 → Nat → Prop) (length pos : Nat) (s16 : List UInt16) (b : Best) :
    Prop :=
  b.maxOverlap + b.maxInc = s16.length ∧ pos + b.maxInc ≤ length ∧ Match s16 (pos - b.maxOverlap)

theorem Reaches.le {Match : List UInt16 → Nat → Prop} {length pos : Nat}
    {b : Best} (h : Reaches Match length pos s16 b) (hle : b.maxOverlap ≤ overlap) :
    b.le ⟨s16.length - overlap, overlap⟩ := by
  have hsum := h.1
  unfold Best.le
  dsimp only
  omega

section Strings

variable {d : Direction} {Bd : Nat → Prop} {cp : Nat → Nat → Prop}
variable {Match : List UInt16 → Nat → Prop} {pos : Nat}

theorem simpleOverlapLoop_cases (h : d.Describes Bd cp Match)
    (hpos : 0 < s16.length) (hle : pos ≤ d.length) (hlength : overlap ≤ s16.length)
    (hoverlap : overlap ≤ pos) (best : Best) :
    (d.simpleOverlapLoop s16 pos overlap best = some best ∧
      ∀ b, b.maxOverlap ≤ overlap → Reaches Match d.length pos s16 b → b.le best) ∨
    (d.simpleOverlapLoop s16 pos overlap best = some ⟨s16.length - overlap, overlap⟩ ∧
      best.le ⟨s16.length - overlap, overlap⟩ ∧
      Reaches Match d.length pos s16 ⟨s16.length - overlap, overlap⟩) ∨
    ((overlap = 0 → d.simpleOverlapLoop s16 pos overlap best = some best) ∧
      (∀ less, overlap = less + 1 →
        d.simpleOverlapLoop s16 pos overlap best = d.simpleOverlapLoop s16 pos less best) ∧
      ∀ b, b.maxOverlap = overlap → Reaches Match d.length pos s16 b → b.le best) := by
  rw [Direction.simpleOverlapLoop.eq_def]
  dsimp only
  by_cases hstop : s16.length - overlap > d.length - pos ∨ overlap < best.maxOverlap
  · refine Or.inl ⟨if_pos hstop, fun b hb hreaches => ?_⟩
    obtain ⟨hsum, hfits, -⟩ := hreaches
    unfold Best.le
    omega
  refine Or.inr ?_
  rw [if_neg hstop]
  by_cases hbetter : overlap > best.maxOverlap ∨ s16.length - overlap > best.maxInc
  · obtain ⟨found, hfound, hmatch⟩ := h.isMatch (pos - overlap) s16 hpos (by omega)
    rw [if_pos hbetter, hfound]
    cases found with
    | true =>
      refine Or.inl ⟨rfl, ?_, ?_, ?_, hmatch.mp rfl⟩
      · unfold Best.le
        dsimp only
        omega
      · dsimp only
        omega
      · dsimp only
        omega
    | false =>
      refine Or.inr ⟨?_, ?_, fun b hb hreaches => ?_⟩
      · rintro rfl
        rfl
      · rintro less rfl
        rfl
      have hyes := hreaches.2.2
      rw [hb] at hyes
      cases hmatch.mpr hyes
  · rw [if_neg hbetter]
    refine Or.inr ⟨?_, ?_, fun b hb hreaches => ?_⟩
    · rintro rfl
      rfl
    · rintro less rfl
      rfl
    have hsum := hreaches.1
    unfold Best.le
    omega

theorem simpleOverlapLoop_eq (h : d.Describes Bd cp Match) (hpos : 0 < s16.length)
    (hle : pos ≤ d.length) (hlength : overlap ≤ s16.length) (hoverlap : overlap ≤ pos)
    (best : Best) : ∃ b, d.simpleOverlapLoop s16 pos overlap best = some b ∧ best.le b ∧
      (b = best ∨ b.maxOverlap ≤ overlap ∧ Reaches Match d.length pos s16 b) ∧
      ∀ b', b'.maxOverlap ≤ overlap → Reaches Match d.length pos s16 b' → b'.le b := by
  induction overlap with
  | zero =>
    obtain ⟨hloop, hall⟩ | ⟨hloop, hbest, hreaches⟩ | ⟨hzero, -, hall⟩ :=
      simpleOverlapLoop_cases h hpos hle hlength hoverlap best
    · exact ⟨best, hloop, best.le_refl, Or.inl rfl, hall⟩
    · exact ⟨_, hloop, hbest, Or.inr ⟨Nat.le_refl _, hreaches⟩, fun b' hb' hr => hr.le hb'⟩
    · exact ⟨best, hzero rfl, best.le_refl, Or.inl rfl, fun b' hb' => hall b' (by omega)⟩
  | succ overlap ih =>
    obtain ⟨hloop, hall⟩ | ⟨hloop, hbest, hreaches⟩ | ⟨-, hnext, hall⟩ :=
      simpleOverlapLoop_cases h hpos hle hlength hoverlap best
    · exact ⟨best, hloop, best.le_refl, Or.inl rfl, hall⟩
    · exact ⟨_, hloop, hbest, Or.inr ⟨Nat.le_refl _, hreaches⟩, fun b' hb' hr => hr.le hb'⟩
    · obtain ⟨b, hb, hbest, hfound, hmore⟩ := ih (by omega) (by omega)
      refine ⟨b, (hnext overlap rfl).trans hb, hbest, ?_, fun b' hb' hr => ?_⟩
      · exact hfound.imp_right fun hf => ⟨Nat.le_succ_of_le hf.1, hf.2⟩
      rcases Nat.eq_or_lt_of_le hb' with heq | hlt
      · exact Best.le_trans (hall b' heq hr) hbest
      · exact hmore b' (by omega) hr

def SimpleTried (Match : List UInt16 → Nat → Prop) (length pos spanLength : Nat)
    (strings : List (List UInt16 × Nat)) (b : Best) : Prop :=
  ∃ p ∈ strings, b.maxOverlap ≤ min (Direction.simpleOverlap p.1 p.2) spanLength ∧
    Reaches Match length pos p.1 b

theorem simpleStringsLoop_eq (h : d.Describes Bd cp Match) (hle : pos ≤ d.length) {spanLength : Nat}
    (hspan : spanLength ≤ pos) (strings : List (List UInt16 × Nat))
    (hstrings : ∀ p ∈ strings, 0 < p.1.length ∧ Direction.simpleOverlap p.1 p.2 ≤ p.1.length)
    (best : Best) : ∃ b, d.simpleStringsLoop pos spanLength strings best = some b ∧ best.le b ∧
      (b = best ∨ SimpleTried Match d.length pos spanLength strings b) ∧
      ∀ b', SimpleTried Match d.length pos spanLength strings b' → b'.le b := by
  induction strings generalizing best with
  | nil => exact ⟨best, rfl, best.le_refl, Or.inl rfl, fun b' ⟨_, hp, _⟩ =>
    absurd hp List.not_mem_nil⟩
  | cons p strings ih =>
    obtain ⟨s16, overlap⟩ := p
    obtain ⟨hpos, hoverlap⟩ := hstrings _ (List.mem_cons_self ..)
    obtain ⟨b, hb, hbest, hfound, hall⟩ := simpleOverlapLoop_eq h hpos hle
      (Nat.le_trans (Nat.min_le_left _ spanLength) hoverlap)
      (Nat.le_trans (Nat.min_le_right _ spanLength) hspan) best
    obtain ⟨b', hb', hbest', hfound', hall'⟩ :=
      ih (fun p hp => hstrings p (List.mem_cons_of_mem _ hp)) b
    refine ⟨b', ?_, Best.le_trans hbest hbest', ?_, ?_⟩
    · rw [Direction.simpleStringsLoop]
      simp only [Option.bind_eq_bind, hb, Option.bind_some]
      exact hb'
    · rcases hfound' with rfl | ⟨p, hp, htried⟩
      · rcases hfound with rfl | hreaches
        · exact Or.inl rfl
        · exact Or.inr ⟨_, List.mem_cons_self .., hreaches⟩
      · exact Or.inr ⟨p, List.mem_cons_of_mem _ hp, htried⟩
    · rintro b'' ⟨p, hp, hless, hreaches⟩
      rcases List.mem_cons.mp hp with rfl | hp
      · exact Best.le_trans (hall b'' hless hreaches) hbest'
      · exact hall' b'' ⟨p, hp, hless, hreaches⟩

end Strings

end Icu.UnicodeSetStringSpan
