import Icu.BmpSet.Represents
import Icu.UnicodeSet.Algebra
import Icu.Lib.Scan

/-! # Spans of UTF-16 text

`UnicodeSet::span` and `spanBack` for sets without strings, in their two forms: the loop
over `U16_NEXT` and `contains` of a set that can be modified, and the loop over table
look-ups of a frozen set. A frozen set spans and contains as the set it was made from.
-/

namespace Icu

open UnicodeSet Utf16 Lib Lib.InversionList Lib.Scan

variable {c : Nat}

namespace BMPSet

variable (set : BMPSet) (s : List UInt16)

def containsSurrogate (c : Nat) : Option Bool :=
  containsSlow set.list c (set.list4kStarts 0xd) (set.list4kStarts 0xe)

def containsSupplementary (c : Nat) : Option Bool :=
  containsSlow set.list c (set.list4kStarts 0x10) (set.list4kStarts 0x11)

/-- The body of the loops of `span`: is the code point at `i` contained, and where is the
next one? Check for sufficient length for the trail unit of each surrogate pair. -/
def spanUnit (limit i : Nat) : Option (Bool × Nat) := do
  let c ← unitAt s i
  if c ≤ 0x7f then return (set.asciiBytes c, i + 1)
  else if c ≤ 0x7ff then return (set.testTable7FF c, i + 1)
  else if c < 0xd800 ∨ c ≥ 0xe000 then
    return (← set.containsBMP c ((c >>> 6) &&& 0x3f) (c >>> 12), i + 1)
  else if c ≥ 0xdc00 ∨ i + 1 = limit then return (← set.containsSurrogate c, i + 1)
  else
    let c2 ← unitAt s (i + 1)
    if c2 < 0xdc00 ∨ c2 ≥ 0xe000 then return (← set.containsSurrogate c, i + 1)
    else return (← set.containsSupplementary (u16GetSupplementary c c2), i + 2)

/-- `BMPSet::span`, for a string that is not empty. -/
def span (cond : USetSpanCondition) : Option Nat :=
  scan (set.spanUnit s s.length) cond.holds s.length s.length 0

/-- The body of the loops of `spanBack`, symmetrical with `spanUnit`. -/
def spanBackUnit (i : Nat) : Option (Bool × Nat) := do
  let limit := i - 1
  let c ← unitAt s limit
  if c ≤ 0x7f then return (set.asciiBytes c, limit)
  else if c ≤ 0x7ff then return (set.testTable7FF c, limit)
  else if c < 0xd800 ∨ c ≥ 0xe000 then
    return (← set.containsBMP c ((c >>> 6) &&& 0x3f) (c >>> 12), limit)
  else if c < 0xdc00 ∨ 0 = limit then return (← set.containsSurrogate c, limit)
  else
    let c2 ← unitAt s (limit - 1)
    if c2 < 0xd800 ∨ c2 ≥ 0xdc00 then return (← set.containsSurrogate c, limit)
    else return (← set.containsSupplementary (u16GetSupplementary c2 c), limit - 1)

/-- `BMPSet::spanBack`, for a string that is not empty. -/
def spanBack (cond : USetSpanCondition) : Option Nat :=
  scanBack (set.spanBackUnit s) cond.holds s.length s.length

end BMPSet

namespace UnicodeSet

/-- `freeze()` for a set without strings. -/
def freeze (set : UnicodeSet) : Option UnicodeSet :=
  if set.isFrozen || set.isBogus then some set
  else (BMPSet.new set.list).map fun bmpSet => { set with bmpSet := some bmpSet }

/-- The body of the loop of `span`. -/
def spanUnit (set : UnicodeSet) (s : List UInt16) (i : Nat) : Option (Bool × Nat) := do
  let (c, next) ← u16Next s i s.length
  return (← set.contains c, next)

/-- `UnicodeSet::span(s, length, spanCondition)` for a set without strings. -/
def span (set : UnicodeSet) (s : List UInt16) (cond : USetSpanCondition) : Option Nat :=
  match set.bmpSet, s with
  | _, [] => some 0
  | some bmpSet, s => bmpSet.span s cond
  | none, s => scan (set.spanUnit s) cond.holds s.length s.length 0

/-- The body of the loop of `spanBack`. -/
def spanBackUnit (set : UnicodeSet) (s : List UInt16) (i : Nat) : Option (Bool × Nat) := do
  let (c, prev) ← u16Prev s 0 i
  return (← set.contains c, prev)

/-- `UnicodeSet::spanBack(s, length, spanCondition)` for a set without strings. -/
def spanBack (set : UnicodeSet) (s : List UInt16) (cond : USetSpanCondition) : Option Nat :=
  match set.bmpSet, s with
  | _, [] => some 0
  | some bmpSet, s => bmpSet.spanBack s cond
  | none, s => scanBack (set.spanBackUnit s) cond.holds s.length s.length

end UnicodeSet

theorem UnicodeSet.contains_eq {set : UnicodeSet} (hl : IsInversionList set.list)
    (hf : set.bmpSet = none) (c : Int) :
    set.contains c = some (decide (c < unicodesetHigh) && covers set.list c) := by
  rw [UnicodeSet.contains, hf]
  by_cases hc : c ≥ unicodesetHigh
  · have hno : ¬ c < unicodesetHigh := by omega
    simp [hc, hno]
  have hlt : c < unicodesetHigh := by omega
  rw [if_neg hc, hl.findCodePoint_eq hlt, covers_eq_rank, decide_eq_true hlt, Option.map_some,
    Nat.and_one_is_mod]
  simp only [Bool.true_and]
  rfl

namespace BMPSet.Represents

variable {set : BMPSet} {list : List Int}

section

variable (h : Represents set list)
include h

theorem containsSurrogate (h0 : 0xd800 ≤ c) (h1 : c < 0xe000) :
    set.containsSurrogate c = some (covers list c) := by
  rw [BMPSet.containsSurrogate, h.list_eq]
  refine containsSlow_eq h.valid h.starts (by omega) (by omega) ?_ (by omega) fun _ => ?_
  · exact (show start4k 0xd ≤ 0xd800 by decide).trans h0
  · exact Nat.lt_of_lt_of_le h1 (by decide)

theorem containsSupplementary (h0 : 0x10000 ≤ c)
    (h1 : c < 0x110000) : set.containsSupplementary c = some (covers list c) := by
  rw [BMPSet.containsSupplementary, h.list_eq]
  exact containsSlow_eq h.valid h.starts (by omega) (by omega)
    ((show start4k 0x10 ≤ 0x10000 by decide).trans h0) h1 (by omega)

/-- A BMP code point that is not a surrogate. -/
theorem containsBMP (h0 : 0x800 ≤ c) (h1 : c < 0xd800 ∨ c ≥ 0xe000) (hc : c < 0x10000) :
    set.containsBMP c ((c >>> 6) &&& 0x3f) (c >>> 12) = some (covers list c) := by
  have hdiv : c >>> 6 = c / 64 := Nat.shiftRight_eq_div_pow c 6
  have hlead : c >>> 12 = c / 4096 := Nat.shiftRight_eq_div_pow c 12
  have hmod : ∀ x : Nat, x &&& 0x3f = x % 64 := fun x => Bits.and_low x 6 0x3f (by decide)
  have hlegal : illegal3 c = false := by
    rw [illegal3, Bool.or_eq_false_iff, decide_eq_false_iff_not, decide_eq_false_iff_not]
    omega
  rw [hdiv, hlead, hmod, h.threeByte c hc, hlegal]
  rfl

theorem contains_eq (c : Int) :
    set.contains c = some (decide (c < unicodesetHigh) && covers list c) := by
  have hhigh : unicodesetHigh = 0x110000 := rfl
  unfold BMPSet.contains
  by_cases hneg : c < 0
  · have hcov : covers list c = false := covers_of_forall_lt fun x hx => by
      have := h.valid.nonneg x hx
      have hlow : unicodesetLow = 0 := rfl
      omega
    rw [if_neg (by omega), if_neg (by omega), if_neg (by omega), if_neg (by omega), hcov,
      Bool.and_false]
  obtain ⟨n, rfl⟩ := Int.eq_ofNat_of_zero_le (Int.not_lt.mp hneg)
  have hnat : ((n : Int)).toNat = n := Int.toNat_natCast n
  rw [hnat]
  by_cases h7f : n ≤ 0x7f
  · rw [if_pos (by omega), h.ascii n (by omega), decide_eq_true (by omega), Bool.true_and]
  rw [if_neg (by omega)]
  by_cases h7ff : n ≤ 0x7ff
  · rw [if_pos (by omega), h.twoByte n (by omega), if_neg (by omega), decide_eq_true (by omega),
      Bool.true_and]
  rw [if_neg (by omega)]
  by_cases hbmp : (n < 0xd800 ∨ n ≥ 0xe000) ∧ n ≤ 0xffff
  · rw [if_pos (by omega), h.containsBMP (by omega) hbmp.1 (by omega), decide_eq_true (by omega),
      Bool.true_and]
  rw [if_neg (by omega)]
  by_cases hmax : n ≤ 0x10ffff
  · rw [if_pos (by omega), h.list_eq, decide_eq_true (by omega), Bool.true_and]
    refine containsSlow_eq h.valid h.starts (by omega) (by omega) ?_ (by omega) (by omega)
    have : start4k 0xd = 0xd000 := by decide
    omega
  · rw [if_neg (by omega), decide_eq_false (by omega), Bool.false_and]

end

end BMPSet.Represents

section Units

variable {set : UnicodeSet} {bmpSet : BMPSet} {s : List UInt16} {i : Nat}

private theorem contains_codePoint (hl : IsInversionList set.list) (hf : set.bmpSet = none)
    (hc : c < 0x110000) : set.contains c = some (covers set.list c) := by
  have hhigh : unicodesetHigh = 0x110000 := rfl
  rw [UnicodeSet.contains_eq hl hf, decide_eq_true (by omega), Bool.true_and]

theorem spanUnit_eq (hr : bmpSet.Represents set.list) (hf : set.bmpSet = none) (hi : i < s.length) :
    ∃ has next, bmpSet.spanUnit s s.length i = some (has, next) ∧
      set.spanUnit s i = some (has, next) ∧ i < next ∧ next ≤ s.length := by
  obtain ⟨c, hc, hlt⟩ := unitAt_eq_some hi
  have hval := contains_codePoint hr.valid hf (c := c) (by omega)
  -- A unit that stands for itself.
  have single : ∀ {has : Bool}, u16Next s i s.length = some (c, i + 1) →
      bmpSet.spanUnit s s.length i = some (has, i + 1) → has = covers set.list c →
      ∃ has next, bmpSet.spanUnit s s.length i = some (has, next) ∧
        set.spanUnit s i = some (has, next) ∧ i < next ∧ next ≤ s.length := by
    rintro has hnext hunit rfl
    exact ⟨_, _, hunit, by simp [UnicodeSet.spanUnit, hnext, hval], by omega, by omega⟩
  simp only [BMPSet.spanUnit, hc, Option.bind_eq_bind, Option.bind_some] at single ⊢
  by_cases h7f : c ≤ 0x7f
  · exact single (u16Next_unit hc (by omega)) (by rw [if_pos h7f]; rfl) (hr.ascii c (by omega))
  by_cases h7ff : c ≤ 0x7ff
  · refine single (u16Next_unit hc (by omega)) (by rw [if_neg h7f, if_pos h7ff]; rfl) ?_
    rw [hr.twoByte c (by omega), if_neg (by omega)]
  by_cases hbmp : c < 0xd800 ∨ c ≥ 0xe000
  · refine single (u16Next_unit hc (by omega)) ?_ rfl
    rw [if_neg h7f, if_neg h7ff, if_pos hbmp, hr.containsBMP (by omega) hbmp hlt]
    rfl
  rw [not_or] at hbmp
  have hsur := hr.containsSurrogate (c := c) (by omega) (by omega)
  rw [if_neg h7f, if_neg h7ff, if_neg (by omega)] at single ⊢
  by_cases hone : c ≥ 0xdc00 ∨ i + 1 = s.length
  · refine single (u16Next_unit hc (by omega)) ?_ rfl
    rw [if_pos hone, hsur]
    rfl
  rw [if_neg hone] at single ⊢
  obtain ⟨c2, h2, hlt2⟩ := unitAt_eq_some (show i + 1 < s.length by omega)
  rw [h2, Option.bind_some] at single ⊢
  by_cases htrail : c2 < 0xdc00 ∨ c2 ≥ 0xe000
  · refine single (u16Next_unit hc fun _ _ => ⟨c2, h2, by omega⟩) ?_ rfl
    rw [if_pos htrail, hsur]
    rfl
  obtain ⟨hb0, hb1⟩ := @u16GetSupplementary_bounds c c2 (by omega) (by omega)
  have hnext := @u16Next_pair _ _ s.length _ _ hc (by omega) (by omega) h2 (by omega)
  have hsup := contains_codePoint hr.valid hf (c := u16GetSupplementary c c2) (by omega)
  refine ⟨covers set.list (u16GetSupplementary c c2), i + 2, ?_, ?_, by omega, by omega⟩
  · rw [if_neg htrail, hr.containsSupplementary hb0 (by omega)]
    rfl
  · simp only [UnicodeSet.spanUnit, hnext, hsup, Option.bind_eq_bind, Option.bind_some]
    rfl

theorem spanBackUnit_eq (hr : bmpSet.Represents set.list) (hf : set.bmpSet = none)
    (h0 : 0 < i) (hi : i ≤ s.length) : ∃ has prev, bmpSet.spanBackUnit s i = some (has, prev) ∧
      set.spanBackUnit s i = some (has, prev) ∧ prev < i := by
  obtain ⟨c, hc, hlt⟩ := unitAt_eq_some (show i - 1 < s.length by omega)
  have hval := contains_codePoint hr.valid hf (c := c) (by omega)
  have single : ∀ {has : Bool}, u16Prev s 0 i = some (c, i - 1) →
      bmpSet.spanBackUnit s i = some (has, i - 1) → has = covers set.list c →
      ∃ has prev, bmpSet.spanBackUnit s i = some (has, prev) ∧
        set.spanBackUnit s i = some (has, prev) ∧ prev < i := by
    rintro has hprev hunit rfl
    exact ⟨_, _, hunit, by simp [UnicodeSet.spanBackUnit, hprev, hval], by omega⟩
  simp only [BMPSet.spanBackUnit, hc, Option.bind_eq_bind, Option.bind_some] at single ⊢
  by_cases h7f : c ≤ 0x7f
  · exact single (u16Prev_unit hc (by omega)) (by rw [if_pos h7f]; rfl) (hr.ascii c (by omega))
  by_cases h7ff : c ≤ 0x7ff
  · refine single (u16Prev_unit hc (by omega)) (by rw [if_neg h7f, if_pos h7ff]; rfl) ?_
    rw [hr.twoByte c (by omega), if_neg (by omega)]
  by_cases hbmp : c < 0xd800 ∨ c ≥ 0xe000
  · refine single (u16Prev_unit hc (by omega)) ?_ rfl
    rw [if_neg h7f, if_neg h7ff, if_pos hbmp, hr.containsBMP (by omega) hbmp hlt]
    rfl
  rw [not_or] at hbmp
  have hsur := hr.containsSurrogate (c := c) (by omega) (by omega)
  rw [if_neg h7f, if_neg h7ff, if_neg (by omega)] at single ⊢
  by_cases hone : c < 0xdc00 ∨ 0 = i - 1
  · refine single (u16Prev_unit hc (by omega)) ?_ rfl
    rw [if_pos hone, hsur]
    rfl
  rw [if_neg hone] at single ⊢
  obtain ⟨c2, h2, hlt2⟩ := unitAt_eq_some (show i - 1 - 1 < s.length by omega)
  rw [h2, Option.bind_some] at single ⊢
  by_cases hlead : c2 < 0xd800 ∨ c2 ≥ 0xdc00
  · refine single (u16Prev_unit hc fun _ _ => ⟨c2, h2, by omega⟩) ?_ rfl
    rw [if_pos hlead, hsur]
    rfl
  obtain ⟨hb0, hb1⟩ := @u16GetSupplementary_bounds c2 c (by omega) (by omega)
  have hprev := u16Prev_pair hc (by omega) (by omega) h2 (by omega)
  have hsup := contains_codePoint hr.valid hf (c := u16GetSupplementary c2 c) (by omega)
  refine ⟨covers set.list (u16GetSupplementary c2 c), i - 1 - 1, ?_, ?_, by omega⟩
  · rw [if_neg hlead, hr.containsSupplementary hb0 (by omega)]
    rfl
  · simp only [UnicodeSet.spanBackUnit, hprev, hsup, Option.bind_eq_bind, Option.bind_some]
    rfl

end Units

/-- Freezing is transparent: the frozen form of a valid list exists, contains the same code
points, and spans every string as the loops over code points do. -/
theorem freeze_transparent {set : UnicodeSet} (h : CodePointSet set) :
    ∃ bmpSet frozen, BMPSet.new set.list = some bmpSet ∧ set.freeze = some frozen ∧
      frozen.bmpSet = some bmpSet ∧
      (∀ c : Int, ∃ has, bmpSet.contains c = some has ∧ set.contains c = some has) ∧
      (∀ (s : List UInt16) (cond : USetSpanCondition), ∃ n,
        frozen.span s cond = some n ∧ set.span s cond = some n ∧
        (s ≠ [] → bmpSet.span s cond = some n)) ∧
      ∀ (s : List UInt16) (cond : USetSpanCondition), ∃ n,
        frozen.spanBack s cond = some n ∧ set.spanBack s cond = some n ∧
        (s ≠ [] → bmpSet.spanBack s cond = some n) := by
  have hf : set.bmpSet = none := by simpa [isFrozen] using h.thawed
  obtain ⟨bmpSet, hnew, hr⟩ := BMPSet.new_represents h.list
  refine ⟨bmpSet, { set with bmpSet := some bmpSet }, hnew, ?_, rfl, fun c => ?_,
    fun s cond => ?_, fun s cond => ?_⟩
  · simp [freeze, h.thawed, h.sound, hnew]
  · exact ⟨_, hr.contains_eq c, UnicodeSet.contains_eq h.list hf c⟩
  · cases s with
    | nil => exact ⟨0, rfl, by simp [UnicodeSet.span], by simp⟩
    | cons u us =>
      obtain ⟨n, h1, h2, -⟩ := scan_agree (fun i hi => spanUnit_eq (s := u :: us) hr hf hi)
        (u :: us).length 0 (by simp) (by simp)
      exact ⟨n, h1, by simp only [UnicodeSet.span, hf]; exact h2, fun _ => h1⟩
  · cases s with
    | nil => exact ⟨0, rfl, by simp [UnicodeSet.spanBack], by simp⟩
    | cons u us =>
      obtain ⟨n, h1, h2, -⟩ := scanBack_agree (fun i h0 hi => spanBackUnit_eq (s :=
        u :: us) hr hf h0 hi) (u :: us).length
        (u :: us).length (by simp) (Nat.le_refl _) (Nat.le_refl _)
      exact ⟨n, h1, by simp only [UnicodeSet.spanBack, hf]; exact h2, fun _ => h1⟩

theorem freeze_transparent_lowercase : CodePointSet ⟨[0x61, 0x7b, 0x110000], [], none, false⟩ ∧
      ∃ bmpSet, BMPSet.new [0x61, 0x7b, 0x110000] = some bmpSet ∧
        ∀ c : Int, ∃ has, bmpSet.contains c = some has ∧
          UnicodeSet.contains ⟨[0x61, 0x7b, 0x110000], [], none, false⟩ c = some has := by
  have h : CodePointSet ⟨[0x61, 0x7b, 0x110000], [], none, false⟩ :=
    ⟨⟨by decide, by decide, by decide⟩, rfl, rfl, rfl⟩
  obtain ⟨bmpSet, -, hnew, -, -, hc, -⟩ := freeze_transparent h
  exact ⟨h, bmpSet, hnew, hc⟩

end Icu
