import Icu.UnicodeSet.SimpleSpan

/-! # The longest match at each position

The loop takes the string match that starts first of those that reach the end of the code point
span. Longest steps from the start of the span visit its start, unless one of them leads over it:
that is a match of a string of contained code points which ends before the end of the span.
-/

namespace Icu.UnicodeSetStringSpan

open UnicodeSet Utf16 Lib Lib.InversionList Lib.Sweep Lib.LongestStep Relation

variable {j i : Nat}

/-- From `i` to `j` by a match of a string. -/
def StringStep (strings : List (List UInt16)) (Match : List UInt16 → Nat → Prop)
    (i j : Nat) : Prop :=
  ∃ t ∈ strings, Match t i ∧ j = i + t.length

/-- From `i` to `j` by one element. -/
def Element (strings : List (List UInt16)) (cp : Nat → Nat → Prop)
    (Match : List UInt16 → Nat → Prop) (i j : Nat) : Prop :=
  cp i j ∨ StringStep strings Match i j

def Visits (strings : List (List UInt16)) (cp : Nat → Nat → Prop)
    (Match : List UInt16 → Nat → Prop) (i : Nat) : Prop :=
  ReflTransGen (Longest (Element strings cp Match)) 0 i

/-- Longest steps get to `i` by a match of a string. -/
def AfterString (strings : List (List UInt16)) (cp : Nat → Nat → Prop)
    (Match : List UInt16 → Nat → Prop) (i : Nat) : Prop :=
  ∃ r, Visits strings cp Match r ∧ Longest (Element strings cp Match) r i ∧
    StringStep strings Match r i

/-- A code point span starts at 0, and behind a string match where no string matches. -/
def SpansFrom (strings : List (List UInt16)) (cp : Nat → Nat → Prop)
    (Match : List UInt16 → Nat → Prop) (i : Nat) : Prop :=
  i = 0 ∨ AfterString strings cp Match i ∧ ∀ j, ¬ StringStep strings Match i j

/-- A longest step inside a code point span, from `i` to `e`, that leads over the start `j` of a
string match which reaches the end of the span. The span ends before the end of the text. -/
structure JumpsOver (strings : List (List UInt16)) (cp : Nat → Nat → Prop)
    (Match : List UInt16 → Nat → Prop) (length i e j : Nat) : Prop where
  visited : Visits strings cp Match i
  longest : Longest (Element strings cp Match) i e
  start : i < j
  inside : j < e
  spanned : ∃ q limit, SpansFrom strings cp Match q ∧ q ≤ i ∧ ReflTransGen cp q limit ∧
    (∀ l, ¬ cp limit l) ∧ e < limit ∧ limit < length ∧ ∃ k, StringStep strings Match j k ∧ limit ≤ k

/-- What the loop relies on for the bytes: a string is tried at each start in a code point span from
which it reaches the end. -/
structure SimpleByte (cp : Nat → Nat → Prop) (Match : List UInt16 → Nat → Prop) (s16 : List UInt16)
    (overlap : Nat) : Prop where
  le_length : Direction.simpleOverlap s16 overlap ≤ s16.length
  reaches : ∀ start pos, Match s16 start → start ≤ pos → pos ≤ start + s16.length →
    ReflTransGen cp start pos → (∀ l, ¬ cp pos l) →
      pos ≤ start + Direction.simpleOverlap s16 overlap

/-! ## The loop -/

/-- The values of `pos` and `spanLength` that `for(;;)` gets to. -/
inductive SimpleState (d : Direction) (strings : List (List UInt16 × Nat)) : Nat → Nat → Prop
  | first {n : Nat} (hspan : d.span 0 = some n) (hne : n ≠ d.length) :
    SimpleState d strings n n
  | afterMatch {pos spanLength : Nat} {best : Best} (hstate : SimpleState d strings pos spanLength)
    (hbest : d.simpleStringsLoop pos spanLength strings ⟨0, 0⟩ = some best)
    (hfound : best.maxInc ≠ 0 ∨ best.maxOverlap ≠ 0)
    (hrest : d.length - (pos + best.maxInc) ≠ 0) :
    SimpleState d strings (pos + best.maxInc) 0
  | afterSpan {pos n : Nat} (hstate : SimpleState d strings pos 0)
    (hbest : d.simpleStringsLoop pos 0 strings ⟨0, 0⟩ = some ⟨0, 0⟩) (hpos : pos ≠ 0)
    (hspan : d.span pos = some n) (hne : n ≠ d.length - pos) (hzero : n ≠ 0) :
    SimpleState d strings (pos + n) n

/-- The loop continues behind a string match that starts at `start`. -/
def ContinuesAfter (d : Direction) (strings : List (List UInt16 × Nat)) (start : Nat) : Prop :=
  ∃ pos spanLength best, SimpleState d strings pos spanLength ∧
    d.simpleStringsLoop pos spanLength strings ⟨0, 0⟩ = some best ∧
    (best.maxInc ≠ 0 ∨ best.maxOverlap ≠ 0) ∧ start = pos - best.maxOverlap

structure SimpleInv (d : Direction) (Bd : Nat → Prop) (cp : Nat → Nat → Prop)
    (Match : List UInt16 → Nat → Prop) (strings : List (List UInt16))
    (pos spanLength : Nat) : Prop where
  bound : Bd pos
  lt : pos < d.length
  span_le : spanLength ≤ pos
  visited : Visits strings cp Match (pos - spanLength)
  chain : ReflTransGen cp (pos - spanLength) pos
  stuck : spanLength ≠ 0 ∨ pos = 0 → ∀ l, ¬ cp pos l
  spans : spanLength ≠ 0 → SpansFrom strings cp Match (pos - spanLength)
  after : spanLength = 0 → pos = 0 ∨ AfterString strings cp Match pos

section Loop

variable {d : Direction} {Bd : Nat → Prop} {cp : Nat → Nat → Prop} {q k : Nat}
variable {Match : List UInt16 → Nat → Prop} {strings : List (List UInt16 × Nat)}
variable {texts : List (List UInt16)} {pos spanLength start : Nat} {b : Best}

/-- The states are those of `simpleLoop` in the run. -/
theorem simpleRun_of_state (hstate : SimpleState d strings pos spanLength) :
    ∃ fuel, d.simpleRun strings = d.simpleLoop strings fuel pos spanLength := by
  induction hstate with
  | first hspan hne =>
    refine ⟨2 * d.length + 2, ?_⟩
    rw [Direction.simpleRun, hspan]
    exact if_neg hne
  | afterMatch hstate hbest hfound hrest ih =>
    obtain ⟨fuel, hrun⟩ := ih
    cases fuel with
    | zero => exact ⟨0, hrun⟩
    | succ fuel =>
      refine ⟨fuel, hrun.trans ?_⟩
      rw [Direction.simpleLoop]
      simp only [Option.bind_eq_bind, hbest, Option.bind_some]
      rw [if_pos hfound, if_neg hrest]
  | afterSpan hstate hbest hpos hspan hne hzero ih =>
    obtain ⟨fuel, hrun⟩ := ih
    cases fuel with
    | zero => exact ⟨0, hrun⟩
    | succ fuel =>
      refine ⟨fuel, hrun.trans ?_⟩
      rw [Direction.simpleLoop]
      simp only [Option.bind_eq_bind, hbest, Option.bind_some, hspan]
      rw [if_neg (by simp), if_neg (by simp [hpos]), if_neg (by simp [hne, hzero])]

section

variable (h : d.Describes Bd cp Match)
include h

theorem element_lt (hpos : ∀ t ∈ texts, 0 < t.length) (i j : Nat)
    (hstep : Element texts cp Match i j) : i < j := by
  rcases hstep with hcp | ⟨t, ht, -, rfl⟩
  · exact h.pieces.lt i j hcp
  have := hpos t ht
  omega

theorem element_le (i j : Nat) (hstep : Element texts cp Match i j) : j ≤ d.length := by
  rcases hstep with hcp | ⟨t, ht, hmatch, rfl⟩
  · exact h.cp_le i j hcp
  · exact h.match_le t i hmatch

theorem bound_of_visited (hreach : Visits texts cp Match j) : Bd j := by
  rcases ReflTransGen.cases_tail hreach with rfl | ⟨i, -, hstep⟩
  · exact h.zero
  rcases hstep.step with hcp | ⟨t, -, hmatch, rfl⟩
  · exact h.pieces.right i j hcp
  · exact h.match_right t i hmatch

/-- Longest steps in a span reach a boundary `p` in it, if no step by a string leads over `p`. -/
theorem visits_boundary (hpos : ∀ t ∈ texts, 0 < t.length)
    {p limit : Nat} (hq : Visits texts cp Match q)
    (hchain : ReflTransGen cp q limit) (hqp : q ≤ p) (hp : p ≤ limit) (hbound : Bd p)
    (hover : ∀ r r', Visits texts cp Match r → q ≤ r → r < p →
      Longest (Element texts cp Match) r r' →
      StringStep texts Match r r' → r' ≤ p) :
    Visits texts cp Match p := by
  refine hq.trans (reaches (element_lt h hpos) hqp fun r hr hlt => ?_)
  have hvisited := hq.trans hr
  have hqr : q ≤ r := le_of_reach (fun i j hij => element_lt h hpos i j hij.step) hr
  -- the code point at r is contained
  have hfirst : ∃ l, cp r l := by
    rcases ReflTransGen.cases_head (h.pieces.split hchain (bound_of_visited h hvisited) hqr
      (by omega)).2 with heq | ⟨l, hl, -⟩
    · omega
    · exact ⟨l, hl⟩
  obtain ⟨l, hl⟩ := hfirst
  obtain ⟨r', hr'⟩ := exists_longest (element_le h)
    (Or.inl hl : Element texts cp Match r l)
  refine ⟨r', hr', ?_⟩
  rcases hr'.step with hcp | hstring
  · exact h.pieces.next r r' p hcp hbound hlt
  · exact hover r r' hvisited hqr hlt hr' hstring

theorem isEnd_length (hpos : ∀ t ∈ texts, 0 < t.length)
    (hreach : Visits texts cp Match d.length) :
    IsEnd (Element texts cp Match) d.length := by
  refine ⟨hreach, fun j hj => ?_⟩
  have hlt := element_lt h hpos _ _ hj
  have hle := element_le h _ _ hj
  omega

theorem isEnd_of_chain (hpos : ∀ t ∈ texts, 0 < t.length)
    (hq : Visits texts cp Match q)
    (hchain : ReflTransGen cp q d.length) (hbound : Bd d.length) :
    IsEnd (Element texts cp Match) d.length := by
  refine isEnd_length h hpos (visits_boundary h hpos hq hchain (le_of_reach h.pieces.lt hchain)
    (Nat.le_refl _) hbound ?_)
  intro r r' _ _ _ _ hstring
  exact element_le h _ _ (Or.inr hstring)

theorem span_end {n : Nat} (hbound : Bd pos) (hle : pos ≤ d.length)
    (hchain : ReflTransGen cp pos n) : Bd n ∧ n ≤ d.length := by
  rcases ReflTransGen.cases_tail hchain with rfl | ⟨i, -, hcp⟩
  · exact ⟨hbound, hle⟩
  · exact ⟨h.pieces.right _ _ hcp, h.cp_le _ _ hcp⟩

end

theorem StringStep.of_tried (h : SimpleTried Match d.length pos spanLength strings b)
    (hle : spanLength ≤ pos) :
    StringStep (strings.map (·.1)) Match (pos - b.maxOverlap) (pos + b.maxInc) ∧
      b.maxOverlap ≤ spanLength := by
  obtain ⟨p, hp, hoverlap, hsum, -, hmatch⟩ := h
  refine ⟨⟨p.1, List.mem_map_of_mem hp, hmatch, ?_⟩, ?_⟩
  · omega
  · omega

theorem tried_of_stringStep (h : d.Describes Bd cp Match)
    (hbytes : ∀ p ∈ strings, SimpleByte cp Match p.1 p.2)
    (hi : SimpleInv d Bd cp Match (strings.map (·.1)) pos spanLength)
    (hstep : StringStep (strings.map (·.1)) Match i k) (hfrom : pos - spanLength ≤ i)
    (hip : i ≤ pos) (hk : pos ≤ k) :
    SimpleTried Match d.length pos spanLength strings ⟨k - pos, pos - i⟩ := by
  obtain ⟨t, ht, hmatch, rfl⟩ := hstep
  obtain ⟨⟨t', overlap⟩, hp, rfl⟩ := List.mem_map.mp ht
  have hend := h.match_le _ _ hmatch
  dsimp only at hmatch hend hk
  refine ⟨_, hp, Nat.le_min.mpr ⟨?_, ?_⟩, ?_, ?_, ?_⟩
  · dsimp only
    rcases Nat.eq_or_lt_of_le hip with rfl | hlt
    · omega
    have hchain := (h.pieces.split hi.chain (h.match_left _ _ hmatch) hfrom hip).2
    have := (hbytes _ hp).reaches i pos hmatch hip hk hchain (hi.stuck (by omega))
    dsimp only at this
    omega
  · dsimp only
    have := hi.span_le
    omega
  · dsimp only
    omega
  · dsimp only
    omega
  · dsimp only
    rwa [Nat.sub_sub_self hip]

structure IsBest (Match : List UInt16 → Nat → Prop) (length pos spanLength : Nat)
    (strings : List (List UInt16 × Nat)) (b : Best) : Prop where
  found : b = ⟨0, 0⟩ ∨ SimpleTried Match length pos spanLength strings b
  le : ∀ b', SimpleTried Match length pos spanLength strings b' → b'.le b

section

variable (h : d.Describes Bd cp Match) (hpos : ∀ t ∈ strings.map (·.1), 0 < t.length)
  (hbytes : ∀ p ∈ strings, SimpleByte cp Match p.1 p.2)
include h hpos hbytes

theorem exists_best (hi : SimpleInv d Bd cp Match (strings.map (·.1)) pos spanLength) :
    ∃ b, d.simpleStringsLoop pos spanLength strings ⟨0, 0⟩ = some b ∧
      IsBest Match d.length pos spanLength strings b := by
  obtain ⟨b, hloop, -, hfound, hall⟩ := simpleStringsLoop_eq h (Nat.le_of_lt hi.lt) hi.span_le
    strings (fun p hp => ⟨hpos p.1 (List.mem_map_of_mem hp), (hbytes p hp).le_length⟩) ⟨0, 0⟩
  exact ⟨b, hloop, hfound, hall⟩

theorem best_of_loop (hi : SimpleInv d Bd cp Match (strings.map (·.1)) pos spanLength)
    (hloop : d.simpleStringsLoop pos spanLength strings ⟨0, 0⟩ = some b) :
    IsBest Match d.length pos spanLength strings b := by
  obtain ⟨b', hloop', hbest⟩ := exists_best h hpos hbytes hi
  rw [hloop, Option.some.injEq] at hloop'
  rwa [hloop']

omit hpos hbytes h in
theorem IsBest.tried (hb : IsBest Match d.length pos spanLength strings b)
    (hfound : b.maxInc ≠ 0 ∨ b.maxOverlap ≠ 0) :
    SimpleTried Match d.length pos spanLength strings b := by
  refine hb.found.resolve_left ?_
  rintro rfl
  simp at hfound

theorem not_stringStep
    (hi : SimpleInv d Bd cp Match (strings.map (·.1)) pos spanLength)
    (hb : IsBest Match d.length pos spanLength strings ⟨0, 0⟩)
    (hfrom : pos - spanLength ≤ i) (hip : i ≤ pos) (hk : pos ≤ k) :
    ¬ StringStep (strings.map (·.1)) Match i k := by
  intro hstep
  have hlt := element_lt h hpos i k (Or.inr hstep)
  have hle := hb.le _ (tried_of_stringStep h hbytes hi hstep hfrom hip hk)
  unfold Best.le at hle
  dsimp only at hle
  omega

theorem isEnd_of_none
    (hi : SimpleInv d Bd cp Match (strings.map (·.1)) pos spanLength)
    (hb : IsBest Match d.length pos spanLength strings ⟨0, 0⟩) (hstuck : ∀ l, ¬ cp pos l) :
    IsEnd (Element (strings.map (·.1)) cp Match) pos := by
  refine ⟨visits_boundary h hpos hi.visited hi.chain (Nat.sub_le _ _) (Nat.le_refl _) hi.bound ?_,
    ?_⟩
  · intro r r' _ hqr hlt _ hstring
    by_contra hover
    exact not_stringStep h hpos hbytes hi hb hqr (by omega) (by omega) hstring
  rintro j (hcp | hstring)
  · exact hstuck j hcp
  have hlt := element_lt h hpos pos j (Or.inr hstring)
  exact not_stringStep h hpos hbytes hi hb (Nat.sub_le _ _) (Nat.le_refl _) (by omega) hstring

/-- The best match starts where longest steps get to, if none of them leads over its start. -/
theorem visits_start (hclear : ∀ i e j, ¬ JumpsOver (strings.map (·.1)) cp Match d.length i e j)
    (hi : SimpleInv d Bd cp Match (strings.map (·.1)) pos spanLength)
    (hb : IsBest Match d.length pos spanLength strings b)
    (htried : SimpleTried Match d.length pos spanLength strings b) :
    Visits (strings.map (·.1)) cp Match (pos - b.maxOverlap) := by
  obtain ⟨hstep, hoverlap⟩ := StringStep.of_tried htried hi.span_le
  have hbound : Bd (pos - b.maxOverlap) := by
    obtain ⟨t, -, hmatch, -⟩ := hstep
    exact h.match_left t _ hmatch
  have hspan := hi.span_le
  refine visits_boundary h hpos hi.visited hi.chain (by omega) (Nat.sub_le _ _) hbound ?_
  intro r r' hvisited hqr hr hlongest hstring
  by_contra hover
  by_cases hend : pos ≤ r'
  · -- a match from r would be better
    have hle := hb.le _ (tried_of_stringStep h hbytes hi hstring hqr (by omega) hend)
    unfold Best.le at hle
    dsimp only at hle
    omega
  · exact hclear r r' (pos - b.maxOverlap) ⟨hvisited, hlongest, hr, by omega, pos - spanLength, pos,
      hi.spans (by omega), hqr, hi.chain, hi.stuck (by omega), by omega, hi.lt, pos + b.maxInc,
      hstep, Nat.le_add_right _ _⟩

theorem longest_best (hi : SimpleInv d Bd cp Match (strings.map (·.1)) pos spanLength)
    (hb : IsBest Match d.length pos spanLength strings b)
    (htried : SimpleTried Match d.length pos spanLength strings b) :
    Longest (Element (strings.map (·.1)) cp Match) (pos - b.maxOverlap) (pos + b.maxInc) := by
  obtain ⟨hstep, hoverlap⟩ := StringStep.of_tried htried hi.span_le
  have hbound : Bd (pos + b.maxInc) := by
    obtain ⟨t, -, hmatch, hend⟩ := hstep
    rw [hend]
    exact h.match_right t _ hmatch
  have hlt := element_lt h hpos _ _ (Or.inr hstep)
  have hspan := hi.span_le
  refine ⟨Or.inr hstep, ?_⟩
  rintro k (hcp | hstring)
  · exact h.pieces.next _ _ _ hcp hbound hlt
  by_cases hend : pos ≤ k
  · have hle := hb.le _ (tried_of_stringStep h hbytes hi hstring (by omega) (Nat.sub_le _ _) hend)
    unfold Best.le at hle
    dsimp only at hle
    omega
  · omega

theorem SimpleInv.after_match (hi : SimpleInv d Bd cp Match (strings.map (·.1)) pos spanLength)
    (hb : IsBest Match d.length pos spanLength strings b)
    (htried : SimpleTried Match d.length pos spanLength strings b)
    (hstart : Visits (strings.map (·.1)) cp Match (pos - b.maxOverlap))
    (hrest : d.length - (pos + b.maxInc) ≠ 0) :
    SimpleInv d Bd cp Match (strings.map (·.1)) (pos + b.maxInc) 0 := by
  have hstep := (StringStep.of_tried htried hi.span_le).1
  have hlt := element_lt h hpos _ _ (Or.inr hstep)
  have hlongest := longest_best h hpos hbytes hi hb htried
  have hvisited := hstart.tail hlongest
  refine ⟨bound_of_visited h hvisited, by omega, Nat.zero_le _, hvisited, .refl, by omega,
    fun hne => absurd rfl hne, fun _ => Or.inr ⟨_, hstart, hlongest, hstep⟩⟩

theorem SimpleInv.after_span {n : Nat}
    (hi : SimpleInv d Bd cp Match (strings.map (·.1)) pos 0)
    (hb : IsBest Match d.length pos 0 strings ⟨0, 0⟩) (hne : pos ≠ 0)
    (hspan : d.span pos = some n) (hrest : n ≠ d.length - pos) (hzero : n ≠ 0) :
    SimpleInv d Bd cp Match (strings.map (·.1)) (pos + n) n := by
  obtain ⟨n', hn', hchain, hstuck⟩ := h.span pos hi.bound (Nat.le_of_lt hi.lt)
  rw [hspan, Option.some.injEq] at hn'
  rw [← hn'] at hchain hstuck
  obtain ⟨hbound, hle⟩ := span_end h hi.bound (Nat.le_of_lt hi.lt) hchain
  have hlt := hi.lt
  have hnone : ∀ k, ¬ StringStep (strings.map (·.1)) Match pos k := by
    intro k hstep
    have := element_lt h hpos pos k (Or.inr hstep)
    exact not_stringStep h hpos hbytes hi hb (Nat.sub_le _ _) (Nat.le_refl _) (by omega) hstep
  refine ⟨hbound, by omega, Nat.le_add_left _ _, ?_, ?_, fun _ => hstuck, fun _ => ?_, fun hz => ?_⟩
  · rw [Nat.add_sub_cancel]
    exact hi.visited
  · rwa [Nat.add_sub_cancel]
  · rw [Nat.add_sub_cancel]
    exact Or.inr ⟨(hi.after rfl).resolve_left hne, hnone⟩
  · exact absurd hz hzero

omit hpos hbytes in
theorem SimpleInv.first {n : Nat} (hspan : d.span 0 = some n) (hne : n ≠ d.length) :
    SimpleInv d Bd cp Match (strings.map (·.1)) n n := by
  obtain ⟨n', hn', hchain, hstuck⟩ := h.span 0 h.zero (Nat.zero_le _)
  rw [hspan, Option.some.injEq] at hn'
  rw [← hn', Nat.zero_add] at hchain hstuck
  obtain ⟨hbound, hle⟩ := span_end h h.zero (Nat.zero_le _) hchain
  refine ⟨hbound, by omega, Nat.le_refl _, ?_, ?_, fun _ => hstuck, fun _ => ?_, fun hz =>
    Or.inl hz⟩
  · rw [Nat.sub_self]
    exact .refl
  · rwa [Nat.sub_self]
  · rw [Nat.sub_self]
    exact Or.inl rfl

/-- The states keep the invariant as long as the matches start where longest steps get to. -/
theorem SimpleState.inv (hvisits : ∀ pos spanLength b, SimpleState d strings pos spanLength →
      SimpleInv d Bd cp Match (strings.map (·.1)) pos spanLength →
      d.simpleStringsLoop pos spanLength strings ⟨0, 0⟩ = some b →
      (b.maxInc ≠ 0 ∨ b.maxOverlap ≠ 0) →
      Visits (strings.map (·.1)) cp Match (pos - b.maxOverlap))
    (hstate : SimpleState d strings pos spanLength) :
    SimpleInv d Bd cp Match (strings.map (·.1)) pos spanLength := by
  induction hstate with
  | first hspan hne => exact SimpleInv.first h hspan hne
  | afterMatch hstate hbest hfound hrest ih =>
    have hb := best_of_loop h hpos hbytes ih hbest
    exact ih.after_match h hpos hbytes hb (hb.tried hfound) (hvisits _ _ _ hstate ih hbest hfound)
      hrest
  | afterSpan hstate hbest hpos' hspan hne hzero ih =>
    exact ih.after_span h hpos hbytes (best_of_loop h hpos hbytes ih hbest) hpos' hspan hne hzero

theorem visits_of_continuesAfter
    (hclear : ∀ i e j, ¬ JumpsOver (strings.map (·.1)) cp Match d.length i e j)
    (hcontinues : ContinuesAfter d strings start) :
    Visits (strings.map (·.1)) cp Match start := by
  obtain ⟨pos, spanLength, b, hstate, hloop, hfound, rfl⟩ := hcontinues
  have hvisits : ∀ pos spanLength b, SimpleState d strings pos spanLength →
      SimpleInv d Bd cp Match (strings.map (·.1)) pos spanLength →
      d.simpleStringsLoop pos spanLength strings ⟨0, 0⟩ = some b →
      (b.maxInc ≠ 0 ∨ b.maxOverlap ≠ 0) →
      Visits (strings.map (·.1)) cp Match (pos - b.maxOverlap) := by
    intro pos spanLength b _ hi hloop hfound
    have hb := best_of_loop h hpos hbytes hi hloop
    exact visits_start h hpos hbytes hclear hi hb (hb.tried hfound)
  exact hvisits _ _ _ hstate (hstate.inv h hpos hbytes hvisits) hloop hfound

theorem simpleLoop_eq
    (hclear : ∀ i e j, ¬ JumpsOver (strings.map (·.1)) cp Match d.length i e j)
    {fuel pos spanLength : Nat}
    (hi : SimpleInv d Bd cp Match (strings.map (·.1)) pos spanLength)
    (hfuel : 2 * (d.length - pos) + (if spanLength = 0 then 0 else 1) < fuel) :
    ∃ n, d.simpleLoop strings fuel pos spanLength = some n ∧
      IsEnd (Element (strings.map (·.1)) cp Match) n := by
  induction fuel generalizing pos spanLength with
  | zero => omega
  | succ fuel ih =>
    obtain ⟨b, hloop, hb⟩ := exists_best h hpos hbytes hi
    rw [Direction.simpleLoop]
    simp only [Option.bind_eq_bind, hloop, Option.bind_some]
    by_cases hsome : b.maxInc ≠ 0 ∨ b.maxOverlap ≠ 0
    · have htried := hb.tried hsome
      have hstart := visits_start h hpos hbytes hclear hi hb htried
      have hlongest := longest_best h hpos hbytes hi hb htried
      rw [if_pos hsome]
      by_cases hrest : d.length - (pos + b.maxInc) = 0
      · rw [if_pos hrest]
        have hvisited := hstart.tail hlongest
        have hend : pos + b.maxInc = d.length := by
          have := element_le h _ _ hlongest.step
          omega
        rw [hend] at hvisited
        exact ⟨d.length, rfl, isEnd_length h hpos hvisited⟩
      rw [if_neg hrest]
      have hnext := hi.after_match h hpos hbytes hb htried hstart hrest
      have hoverlap := (StringStep.of_tried htried hi.span_le).2
      refine ih hnext ?_
      rw [if_pos rfl]
      split at hfuel
      · omega
      · omega
    rw [if_neg hsome]
    obtain rfl : b = ⟨0, 0⟩ := by
      rw [not_or, not_not, not_not] at hsome
      cases b
      exact congrArg₂ Best.mk hsome.1 hsome.2
    by_cases hspan : spanLength ≠ 0 ∨ pos = 0
    · rw [if_pos hspan]
      exact ⟨pos, rfl, isEnd_of_none h hpos hbytes hi hb (hi.stuck hspan)⟩
    rw [if_neg hspan]
    obtain ⟨hzero, hne⟩ := not_or.mp hspan
    obtain rfl : spanLength = 0 := not_not.mp hzero
    obtain ⟨n, hn, hchain, hstuck⟩ := h.span pos hi.bound (Nat.le_of_lt hi.lt)
    rw [hn, Option.bind_some]
    have hreach := hi.visited
    rw [Nat.sub_zero] at hreach
    obtain ⟨hbound, hle⟩ := span_end h hi.bound (Nat.le_of_lt hi.lt) hchain
    by_cases hstop : n = d.length - pos ∨ n = 0
    · rw [if_pos hstop]
      refine ⟨pos + n, rfl, ?_⟩
      by_cases hz : n = 0
      · subst hz
        exact isEnd_of_none h hpos hbytes hi hb hstuck
      have hend : pos + n = d.length := by
        have := hi.lt
        omega
      rw [hend] at hchain hbound ⊢
      exact isEnd_of_chain h hpos hreach hchain hbound
    · obtain ⟨hrest, hz⟩ := not_or.mp hstop
      rw [if_neg hstop]
      refine ih (hi.after_span h hpos hbytes hb hne hn hrest hz) ?_
      rw [if_neg hz]
      rw [if_pos rfl] at hfuel
      omega

theorem simpleRun_eq
    (hclear : ∀ i e j, ¬ JumpsOver (strings.map (·.1)) cp Match d.length i e j) :
    ∃ n, d.simpleRun strings = some n ∧ IsEnd (Element (strings.map (·.1)) cp Match) n := by
  obtain ⟨n, hn, hchain, -⟩ := h.span 0 h.zero (Nat.zero_le _)
  rw [Nat.zero_add] at hchain
  obtain ⟨hbound, hle⟩ := span_end h h.zero (Nat.zero_le _) hchain
  rw [Direction.simpleRun]
  simp only [Option.bind_eq_bind, hn, Option.bind_some]
  by_cases hwhole : n = d.length
  · rw [if_pos hwhole]
    rw [hwhole] at hchain hbound
    exact ⟨d.length, rfl, isEnd_of_chain h hpos .refl hchain hbound⟩
  rw [if_neg hwhole]
  refine simpleLoop_eq h hpos hbytes hclear (SimpleInv.first h hn hwhole) ?_
  split
  · omega
  · omega

/-! ## The other direction -/

omit hpos hbytes in
theorem limit_unique {p n limit : Nat} (hchain : ReflTransGen cp p n) (hstuck : ∀ l, ¬ cp n l)
    (hq : Bd q) (hpq : p ≤ q) (hqn : q ≤ n) (hchain' : ReflTransGen cp q limit)
    (hstuck' : ∀ l, ¬ cp limit l) : n = limit := by
  have hrest := (h.pieces.split hchain hq hpq hqn).2
  exact Nat.le_antisymm (h.pieces.le_of_stuck hchain' hstuck' hrest)
    (h.pieces.le_of_stuck hrest hstuck hchain')

section

variable (hinv : ∀ pos spanLength, SimpleState d strings pos spanLength →
    SimpleInv d Bd cp Match (strings.map (·.1)) pos spanLength)
  (hvisits : ∀ start, ContinuesAfter d strings start → Visits (strings.map (·.1)) cp Match start)
include hinv hvisits

/-- From the states before `q` the loop gets to the end of the code point span at `q`. -/
theorem state_of_spansFrom {limit m : Nat} (hzero : q ≠ 0)
    (hnone : ∀ k, ¬ StringStep (strings.map (·.1)) Match q k)
    (hvisited : Visits (strings.map (·.1)) cp Match q) (hchain : ReflTransGen cp q limit)
    (hstuck : ∀ l, ¬ cp limit l) (hlt : q < limit) (hlimit : limit < d.length)
    (hstate : SimpleState d strings pos spanLength) (hle : pos - spanLength ≤ q)
    (hm : 2 * (d.length - pos) + (if spanLength = 0 then 0 else 1) = m) :
    ∃ spanLength, SimpleState d strings limit spanLength ∧ limit - spanLength ≤ q := by
  have hforward := element_lt h hpos
  have hbound := bound_of_visited h hvisited
  induction m using Nat.strongRecOn generalizing pos spanLength with
  | ind m ih =>
  have hi := hinv _ _ hstate
  have hposlt := hi.lt
  by_cases hinside : spanLength ≠ 0 ∧ q ≤ pos
  · -- the span of this state is the one that goes on to the limit
    obtain rfl := limit_unique h hi.chain (hi.stuck (Or.inl hinside.1)) hbound hle hinside.2 hchain
      hstuck
    exact ⟨spanLength, hstate, hle⟩
  obtain ⟨b, hloop, hb⟩ := exists_best h hpos hbytes hi
  by_cases hfound : b.maxInc ≠ 0 ∨ b.maxOverlap ≠ 0
  · -- longest steps go to the end of the match, which is not behind q
    have htried := hb.tried hfound
    have hstart := hvisits _ ⟨pos, spanLength, b, hstate, hloop, hfound, rfl⟩
    have hlongest := longest_best h hpos hbytes hi hb htried
    obtain ⟨hstep, hoverlap⟩ := StringStep.of_tried htried hi.span_le
    have hbefore : pos - b.maxOverlap < q := by
      by_contra hge
      have hsame : spanLength = 0 ∧ pos = q := by omega
      rw [show b.maxOverlap = 0 by omega, hsame.2] at hstep
      exact hnone _ hstep
    have hend := hlongest.le_of_reach hforward hstart hvisited hbefore
    refine ih _ ?_ (.afterMatch hstate hloop hfound (by omega)) hend rfl
    rw [← hm, if_pos rfl]
    split <;> omega
  obtain rfl : b = ⟨0, 0⟩ := by
    rw [not_or, not_not, not_not] at hfound
    cases b
    exact congrArg₂ Best.mk hfound.1 hfound.2
  have hlast : (∀ l, ¬ cp pos l) → q ≤ pos := fun hstuck =>
    (isEnd_of_none h hpos hbytes hi hb hstuck).ge_of_reach hforward hvisited
  by_cases hspan : spanLength ≠ 0 ∨ pos = 0
  · have := hlast (hi.stuck hspan)
    omega
  obtain ⟨hz, hne⟩ := not_or.mp hspan
  obtain rfl : spanLength = 0 := not_not.mp hz
  obtain ⟨n, hn, hchain', hstuck'⟩ := h.span pos hi.bound (Nat.le_of_lt hposlt)
  by_cases hn0 : n = 0
  · subst hn0
    have hqpos := hlast hstuck'
    have := limit_unique h hchain' hstuck' hbound hle hqpos hchain hstuck
    omega
  by_cases hrest : n = d.length - pos
  · have := limit_unique h hchain' hstuck' hbound hle (by omega) hchain hstuck
    omega
  refine ih _ ?_ (.afterSpan hstate hloop hne hn hrest hn0) (by omega) rfl
  rw [← hm, if_neg hn0, if_pos rfl]
  omega

theorem exists_state {limit : Nat} (hspans : SpansFrom (strings.map (·.1)) cp Match q)
    (hchain : ReflTransGen cp q limit) (hstuck : ∀ l, ¬ cp limit l) (hlt : q < limit)
    (hlimit : limit < d.length) :
    ∃ spanLength, SimpleState d strings limit spanLength ∧ limit - spanLength ≤ q := by
  obtain ⟨n, hn, hfirst, hstuck'⟩ := h.span 0 h.zero (Nat.zero_le _)
  rw [Nat.zero_add] at hfirst hstuck'
  have hvisited : Visits (strings.map (·.1)) cp Match q := by
    rcases hspans with rfl | ⟨⟨r, hr, hlongest, -⟩, -⟩
    · exact .refl
    · exact hr.tail hlongest
  have hbound := bound_of_visited h hvisited
  have hne : n ≠ d.length := by
    rintro rfl
    have := limit_unique h hfirst hstuck' hbound (Nat.zero_le q) (by omega) hchain hstuck
    omega
  have hstate : SimpleState d strings n n := .first hn hne
  by_cases hzero : q = 0
  · obtain rfl := limit_unique h hfirst hstuck' hbound (Nat.zero_le q) (by omega) hchain hstuck
    exact ⟨n, hstate, by omega⟩
  · exact state_of_spansFrom h hpos hbytes hinv hvisits hzero (hspans.resolve_left hzero).2 hvisited
      hchain hstuck hlt hlimit hstate (by omega) rfl

end

theorem clear_of_visits
    (hvisits : ∀ start, ContinuesAfter d strings start → Visits (strings.map (·.1)) cp Match start)
    (i e j : Nat) : ¬ JumpsOver (strings.map (·.1)) cp Match d.length i e j := by
  rintro ⟨hvisited, hlongest, hstart, hinside, q, limit, hspans, hqi, hchain, hstuck, helimit,
    hlimit,
    k, hstep, hk⟩
  have hforward := element_lt h hpos
  have hinv : ∀ pos spanLength, SimpleState d strings pos spanLength →
      SimpleInv d Bd cp Match (strings.map (·.1)) pos spanLength := fun pos spanLength hstate =>
    hstate.inv h hpos hbytes fun pos spanLength b hstate' _ hloop hfound =>
      hvisits _ ⟨pos, spanLength, b, hstate', hloop, hfound, rfl⟩
  obtain ⟨spanLength, hstate, hle⟩ := exists_state h hpos hbytes hinv hvisits hspans hchain hstuck
    (by omega) hlimit
  have hi := hinv _ _ hstate
  obtain ⟨b, hloop, hb⟩ := exists_best h hpos hbytes hi
  have htry := tried_of_stringStep h hbytes hi hstep (by omega) (by omega) hk
  have hbetter := hb.le _ htry
  unfold Best.le at hbetter
  dsimp only at hbetter
  have hfound : b.maxInc ≠ 0 ∨ b.maxOverlap ≠ 0 := by omega
  have hbest := hvisits _ ⟨limit, spanLength, b, hstate, hloop, hfound, rfl⟩
  have hlongest' := longest_best h hpos hbytes hi hb (hb.tried hfound)
  -- the best match starts at `j` or before it, and ends behind `e`
  rcases Nat.lt_trichotomy (limit - b.maxOverlap) i with hlt | heq | hgt
  · have := hlongest'.le_of_reach hforward hbest hvisited hlt
    omega
  · rw [heq] at hlongest'
    have := hlongest.unique hlongest'
    omega
  · have := hlongest.le_of_reach hforward hvisited hbest hgt
    omega

theorem visits_iff_clear :
    (∀ start, ContinuesAfter d strings start → Visits (strings.map (·.1)) cp Match start) ↔
      ∀ i e j, ¬ JumpsOver (strings.map (·.1)) cp Match d.length i e j :=
  ⟨clear_of_visits h hpos hbytes, fun hclear _ => visits_of_continuesAfter h hpos hbytes hclear⟩

end

end Loop

section Sets

variable {set : UnicodeSet} {spanSet : UnicodeSet}

theorem fwdByte_simple {list : List Int} (hspans : Spans spanSet list)
    (t : List UInt16) : ∃ byte, fwdByte spanSet t = some byte ∧ ∀ s : List UInt16,
      SimpleByte (ContainedAt list s) (fun t start => SubstringAt s t start) t byte := by
  obtain ⟨n, hn, hchain, hstuck⟩ := hspans.span t
  have hpieces := Utf16.pieces t fun c => covers list c = true
  have hnle : n ≤ t.length := by
    rcases ReflTransGen.cases_tail hchain with rfl | ⟨i, -, c, hcp, -⟩
    · exact Nat.zero_le _
    · exact hcp.le_length
  -- a span in the text that ends in the string ends in it where the span of the string does
  have hreaches : ∀ (s : List UInt16) (start pos : Nat), SubstringAt s t start → start ≤ pos →
      pos ≤ start + t.length → ReflTransGen (ContainedAt list s) start pos → pos ≤ start + n := by
    intro s start pos hm hle hend hreach
    have hinner : ReflTransGen (ContainedAt list t) 0 (pos - start) := by
      refine (hm.chain_iff (k := 0) (by omega)).mpr ?_
      rwa [Nat.add_zero, Nat.add_sub_cancel' hle]
    have := hpieces.le_of_stuck hchain hstuck hinner
    omega
  have hlong : ∀ byte, byte ≥ longSpan → Direction.simpleOverlap t byte = t.length :=
    fun byte hbyte => if_pos hbyte
  rw [fwdByte, spanLengthByte, hn]
  simp only [Option.bind_eq_bind, Option.bind_some]
  by_cases hlt : n < t.length
  · refine ⟨makeSpanLengthByte n, by rw [if_pos hlt]; rfl, fun s => ?_⟩
    by_cases hshort : n < 0xfe
    · have hoverlap : Direction.simpleOverlap t (makeSpanLengthByte n) = n := by
        rw [makeSpanLengthByte, if_pos hshort, Direction.simpleOverlap, longSpan, if_neg (by omega)]
      refine ⟨by omega, fun start pos hm hle hend hreach _ => ?_⟩
      rw [hoverlap]
      exact hreaches s start pos hm hle hend hreach
    · have hoverlap := hlong (makeSpanLengthByte n)
        (by rw [makeSpanLengthByte, if_neg hshort]; decide)
      refine ⟨by omega, fun start pos hm hle hend hreach _ => ?_⟩
      rw [hoverlap]
      exact hend
  · refine ⟨allCpContained, by rw [if_neg hlt]; rfl, fun s => ?_⟩
    have hoverlap := hlong allCpContained (by decide)
    refine ⟨by omega, fun start pos hm hle hend hreach _ => ?_⟩
    rw [hoverlap]
    exact hend

/-- In the text, a string of contained code points hides the start of another match: at a position
that longest steps visit in a code point span, it is the longest element and ends before the end of
the span, and a string that starts inside it reaches that end. -/
def HidesStart (set : UnicodeSet) (s : List UInt16) : Prop :=
  ∃ i e j, JumpsOver set.strings (ContainedAt set.list s) (fun t start => SubstringAt s t start)
    s.length i e j

/-- All string matches that `span` continues after start where the longest elements lead to, and it
stops where they end. -/
structure FollowsLongest (set : UnicodeSet) (ss : UnicodeSetStringSpan) (s : List UInt16) :
    Prop where
  visits : ∀ start, ContinuesAfter (ss.forward s) (ss.strings.zip ss.spanLengths) start →
    ReflTransGen (Longest (Consumes set s)) 0 start
  stops : ∃ n, ss.spanSimple s = some n ∧ ∀ m, IsEnd (Consumes set s) m ↔ m = n

theorem isEnd_of_irrelevant (hspans : Spans spanSet set.list)
    (hpos : ∀ t ∈ set.strings, 0 < t.length)
    (h : ∀ t ∈ set.strings, ReflTransGen (ContainedAt set.list t) 0 t.length) (s : List UInt16) :
    ∃ n, spanSet.span s .contained = some n ∧ IsEnd (Consumes set s) n := by
  have hd := forward_describes ⟨spanSet, [], [], [], 0⟩ hspans s
  have hchainOf : ∀ i j, StringStep set.strings (fun t start => SubstringAt s t start) i j →
      ReflTransGen (ContainedAt set.list s) i j := by
    rintro i j ⟨t, ht, hm, rfl⟩
    exact (hm.chain_iff (k := 0) (Nat.le_refl _)).mp (h t ht)
  obtain ⟨n, hn, hchain, hstuck⟩ := hspans.span s
  refine ⟨n, hn, ?_, ?_⟩
  · refine visits_boundary hd hpos .refl hchain (Nat.zero_le _) (Nat.le_refl _)
      (span_end hd hd.zero (Nat.zero_le _) hchain).1 fun r r' hvisited _ hlt _ hstring => ?_
    have hrest := (hd.pieces.split hchain (bound_of_visited hd hvisited) (Nat.zero_le _)
      (Nat.le_of_lt hlt)).2
    exact hd.pieces.le_of_stuck hrest hstuck (hchainOf r r' hstring)
  rintro j (hcp | hstring)
  · exact hstuck j hcp
  rcases ReflTransGen.cases_head (hchainOf n j hstring) with heq | ⟨l, hl, -⟩
  · have := element_lt hd hpos n j (Or.inr hstring)
    omega
  · exact hstuck l hl

/-- `span` with `USET_SPAN_SIMPLE` advances by the longest element at each position if and only if
no string of contained code points hides the start of a match. A set without relevant strings is
spanned by code points alone. -/
theorem spanSimple_isEnd (hl : IsInversionList set.list) (hne : [] ∉ set.strings) {which : Which}
    (hwhich : which ≠ .backUtf16Contained) :
    ∃ ss, new set which = some ss ∧ ∀ s,
      (ss.needsStringSpanUTF16 = true → (FollowsLongest set ss s ↔ ¬ HidesStart set s)) ∧
      (ss.needsStringSpanUTF16 = false →
        ∃ n, ss.spanSet.span s .contained = some n ∧ ∀ m, IsEnd (Consumes set s) m ↔ m = n) := by
  have hpos : ∀ t ∈ set.strings, 0 < t.length := by
    intro t ht
    refine List.length_pos_of_ne_nil ?_
    rintro rfl
    exact hne ht
  obtain ⟨ss, hnew, hbuilt⟩ := new_eq hl which
  refine ⟨ss, hnew, fun s => ⟨fun hneeds => ?_, fun hno => ?_⟩⟩
  · obtain ⟨bytes, hbytes, hall⟩ := mapM_eq_some (l := set.strings)
      fun t _ => fwdByte_simple hbuilt.spans t
    rw [new_spanLengths hnew hneeds hwhich, Option.some.injEq] at hbytes
    rw [← hbytes, ← hbuilt.strings] at hall
    have hmap : (ss.strings.zip ss.spanLengths).map (·.1) = set.strings := by
      rw [List.map_fst_zip (Nat.le_of_eq hall.length_eq), hbuilt.strings]
    have hd := forward_describes ss hbuilt.spans s
    have hpos' : ∀ t ∈ (ss.strings.zip ss.spanLengths).map (·.1), 0 < t.length := by rwa [hmap]
    have hsimple : ∀ p ∈ ss.strings.zip ss.spanLengths, SimpleByte (ContainedAt set.list s)
        (fun t start => SubstringAt s t start) p.1 p.2 := fun p hp => List.forall₂_zip hall hp s
    have hiff := visits_iff_clear hd hpos' hsimple
    have hrun := simpleRun_eq hd hpos' hsimple
    rw [hmap] at hiff hrun
    have hclear : (∀ i e j, ¬ JumpsOver set.strings (ContainedAt set.list s)
        (fun t start => SubstringAt s t start) s.length i e j) ↔ ¬ HidesStart set s := by
      simp only [HidesStart, not_exists]
    refine ⟨fun hfollows => hclear.mp (hiff.mp hfollows.visits), fun hhides => ?_⟩
    have hnone := hclear.mpr hhides
    obtain ⟨n, hn, hend⟩ := hrun hnone
    exact ⟨hiff.mpr hnone, n, hn, hend.iff_eq⟩
  · obtain ⟨n, hn, hend⟩ := isEnd_of_irrelevant hbuilt.spans hpos (hbuilt.irrelevant hno) s
    exact ⟨n, hn, hend.iff_eq⟩

/-- The set `[a{ab}{bc}]` and the text `aab`. -/
theorem spanSimple_isEnd_aab :
    ∃ ss, new ⟨[0x61, 0x62, 0x110000], [[0x61, 0x62], [0x62, 0x63]], none, false⟩
        .fwdUtf16Contained = some ss ∧ ss.needsStringSpanUTF16 = true ∧
      ∃ n, ss.spanSimple [0x61, 0x61, 0x62] = some n ∧ ∀ m, IsEnd
        (Consumes ⟨[0x61, 0x62, 0x110000], [[0x61, 0x62], [0x62, 0x63]], none, false⟩
          [0x61, 0x61, 0x62]) m ↔ m = n := by
  have hl : IsInversionList [0x61, 0x62, 0x110000] := ⟨by decide, by decide, by decide⟩
  obtain ⟨ss, hnew, hspan⟩ := @spanSimple_isEnd
    ⟨[0x61, 0x62, 0x110000], [[0x61, 0x62], [0x62, 0x63]], none, false⟩ hl (by decide)
    .fwdUtf16Contained (by decide)
  have hneeds : (new ⟨[0x61, 0x62, 0x110000], [[0x61, 0x62], [0x62, 0x63]], none, false⟩
      .fwdUtf16Contained).map needsStringSpanUTF16 = some true := by
        set_option maxRecDepth 1000 in decide
  rw [hnew] at hneeds
  have hneeds := Option.some.inj hneeds
  refine ⟨ss, hnew, hneeds, (((hspan _).1 hneeds).mpr ?_).stops⟩
  -- a match that is jumped over starts behind 0 and ends the first span before the end of the text
  rintro ⟨i, e, j, -, -, hstart, hinside, q, limit, -, -, -, -, helimit, hlimit, -⟩
  change limit < 3 at hlimit
  omega

section HiddenStart

/-- The set `[aby{ab}{byz}]` -/
def hiddenStart : UnicodeSet :=
  ⟨[0x61, 0x63, 0x79, 0x7a, 0x110000], [[0x61, 0x62], [0x62, 0x79, 0x7a]], none, false⟩

theorem consumes_hiddenStart (h : Consumes hiddenStart [0x61, 0x62, 0x79, 0x7a] i j) :
    (j = 4 → i = 1) ∧ (j = 1 → i = 0) := by
  rcases h with ⟨c, hcp, hcov⟩ | ⟨t, ht, hm, rfl⟩
  · have hprev := hcp.u16Prev_eq
    have hcode : (u16Prev [0x61, 0x62, 0x79, 0x7a] 0 4) = some (0x7a, 3) ∧
        (u16Prev [0x61, 0x62, 0x79, 0x7a] 0 1) = some (0x61, 0) := by decide
    constructor
    · rintro rfl
      rw [hcode.1, Option.some.injEq, Prod.mk.injEq] at hprev
      rw [← hprev.1] at hcov
      exact absurd hcov (by decide)
    · rintro rfl
      rw [hcode.2, Option.some.injEq, Prod.mk.injEq] at hprev
      exact hprev.2.symm
  · have hcases : t = [0x61, 0x62] ∨ t = [0x62, 0x79, 0x7a] := by
      simpa [hiddenStart] using ht
    have htext := hm.eq
    rcases hcases with rfl | rfl
    · refine ⟨fun hj => ?_, fun hj => absurd hj (by simp)⟩
      obtain rfl : i = 2 := by simpa using hj
      exact absurd htext (by decide)
    · refine ⟨fun hj => by simpa using hj, fun hj => absurd hj (by simp)⟩

/-- In `abyz`, the string `ab` hides the start of `byz`: longest steps end before `z`, but `span`
goes over the whole text. -/
theorem spanSimple_hidden_start : ∃ ss, new hiddenStart .fwdUtf16Contained = some ss ∧
    ss.needsStringSpanUTF16 = true ∧ ss.spanSimple [0x61, 0x62, 0x79, 0x7a] = some 4 ∧
      ¬ IsEnd (Consumes hiddenStart [0x61, 0x62, 0x79, 0x7a]) 4 := by
  have hrun : (new hiddenStart .fwdUtf16Contained).map (fun ss => (ss.needsStringSpanUTF16,
      ss.spanSimple [0x61, 0x62, 0x79, 0x7a])) = some (true, some 4) := by decide +kernel
  obtain ⟨ss, hnew, hresult⟩ := Option.map_eq_some_iff.mp hrun
  rw [Prod.mk.injEq] at hresult
  refine ⟨ss, hnew, hresult.1, hresult.2, fun hend => ?_⟩
  -- the last step is from 1 by `byz`, and the one before it would be from 0 by `a` only
  rcases ReflTransGen.cases_tail hend.1 with heq | ⟨i, hreach, hlast⟩
  · cases heq
  obtain rfl := (consumes_hiddenStart hlast.step).1 rfl
  rcases ReflTransGen.cases_tail hreach with heq | ⟨i, -, hfirst⟩
  · cases heq
  obtain rfl := (consumes_hiddenStart hfirst.step).2 rfl
  obtain ⟨found, hfound, hmatch⟩ := @matches16CPB_eq [0x61, 0x62, 0x79, 0x7a] [0x61, 0x62] 0
    (by decide) (by decide)
  rw [show matches16CPB [0x61, 0x62, 0x79, 0x7a] 0 [0x61, 0x62] = some true from by decide,
    Option.some.injEq] at hfound
  have hab : Consumes hiddenStart [0x61, 0x62, 0x79, 0x7a] 0 2 :=
    Or.inr ⟨[0x61, 0x62], by decide, hmatch.mp hfound.symm, rfl⟩
  exact absurd (hfirst.2 hab) (by decide)

end HiddenStart

end Sets

end Icu.UnicodeSetStringSpan
