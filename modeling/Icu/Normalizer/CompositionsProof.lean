import Icu.Normalizer.Compositions

/-! # Reading compositions lists

The first unit of a tuple has a key for its trail character. The keys of trail characters from
U+3400 are among those of characters from U+1A0D to U+1E3F, so that a list is only in the order
of its keys if it has neither.
-/

namespace Icu.Normalizer

open Lib.Bits Normalizer2DataBuilder Normalizer2Impl

variable {combinesForward : Nat → Bool} {pair : CompositionPair} {pairs : List CompositionPair}
  {trail key1 key2 : Nat} {rest before : List CompositionPair}

namespace CompositionPair

structure Valid (pair : CompositionPair) : Prop where
  trail_le : pair.trail ≤ 0x10ffff
  composite_le : pair.composite ≤ 0x10ffff

theorem valid_iff : pair.Valid ↔ pair.trail ≤ 0x10ffff ∧ pair.composite ≤ 0x10ffff :=
  ⟨fun h => ⟨h.1, h.2⟩, fun h => ⟨h.1, h.2⟩⟩

def keyOf (trail : Nat) : Nat :=
  if trail < 0x3400 then 2 * trail else 0x3400 + 2 * (trail / 0x400)

def key (pair : CompositionPair) : Nat := keyOf pair.trail

variable (combinesForward) (pair)

def isTriple : Bool :=
  decide (0x3400 ≤ pair.trail) || decide (0xffff < compositeAndFwd combinesForward pair)

def firstUnit (last : Bool) : Nat :=
  key pair + (if isTriple combinesForward pair then 1 else 0) + if last then 0x8000 else 0

def secondUnit : Nat :=
  if pair.trail < 0x3400 then
    if compositeAndFwd combinesForward pair ≤ 0xffff then compositeAndFwd combinesForward pair
    else compositeAndFwd combinesForward pair / 0x10000
  else pair.trail % 0x400 * 0x40 + compositeAndFwd combinesForward pair / 0x10000

end CompositionPair

open CompositionPair

theorem compositeAndFwd_eq (combinesForward : Nat → Bool) (pair : CompositionPair) :
    compositeAndFwd combinesForward pair =
      2 * pair.composite + if combinesForward pair.composite then 1 else 0 := by
  unfold compositeAndFwd
  dsimp only
  split
  · rw [or_low (show 1 < 2 ^ 1 by decide)]
    omega
  · rw [Nat.shiftLeft_eq]
    omega

theorem compositeAndFwd_lt (combinesForward : Nat → Bool) (hvalid : pair.Valid) :
    compositeAndFwd combinesForward pair < 0x220000 := by
  have := hvalid.composite_le
  rw [compositeAndFwd_eq]
  split <;> omega

theorem keyOf_lt (htrail : trail ≤ 0x10ffff) : keyOf trail < 0x8000 := by
  unfold keyOf
  split <;> omega

theorem keyOf_even (trail : Nat) : keyOf trail % 2 = 0 := by
  unfold keyOf
  split <;> omega

theorem secondUnit_lt (combinesForward : Nat → Bool) (hvalid : pair.Valid) :
    secondUnit combinesForward pair < 0x10000 := by
  have := compositeAndFwd_lt combinesForward hvalid
  unfold secondUnit
  split_ifs <;> omega

theorem tuple_eq (hvalid : pair.Valid) (last : Bool) : tuple combinesForward pair last =
      firstUnit combinesForward pair last :: secondUnit combinesForward pair ::
        if isTriple combinesForward pair then [compositeAndFwd combinesForward pair % 0x10000]
        else [] := by
  have htrail := hvalid.trail_le
  have hcomposite := compositeAndFwd_lt combinesForward hvalid
  have hlast (n : Nat) (hn : n < 0x8000) :
      toUChar (if last then n ||| comp1LastTuple else n) = n + if last then 0x8000 else 0 := by
    unfold toUChar comp1LastTuple
    split
    · rw [Nat.or_comm, show 0x8000 = 1 * 2 ^ 15 by rfl, or_mul (by omega)]
      omega
    · omega
  have hchar (n : Nat) (hn : n < 0x10000) : toUChar n = n := by
    unfold toUChar
    omega
  unfold tuple firstUnit secondUnit isTriple key keyOf comp1TrailLimit comp1Triple
    comp1TrailShift comp2TrailShift
  by_cases hlow : pair.trail < 0x3400
  · by_cases hbmp : compositeAndFwd combinesForward pair ≤ 0xffff
    · simp only [if_pos hlow, if_pos hbmp, decide_eq_false (Nat.not_le.mpr hlow),
        decide_eq_false (Nat.not_lt.mpr hbmp)]
      rw [hlast _ (by rw [Nat.shiftLeft_eq]; omega), hchar _ (by omega), Nat.shiftLeft_eq]
      simp [Nat.mul_comm]
    simp only [if_pos hlow, if_neg hbmp, decide_eq_true (Nat.not_le.mp hbmp), Bool.or_true,
      if_true]
    rw [or_one, Nat.shiftLeft_eq, Nat.shiftRight_eq_div_pow, hlast _ (by omega),
      hchar _ (by omega)]
    simp [toUChar, Nat.mul_comm]
  · simp only [if_neg hlow, decide_eq_true (Nat.not_lt.mp hlow), Bool.true_or, if_true]
    rw [or_one, Nat.shiftRight_eq_div_pow, Nat.shiftRight_eq_div_pow, hlast _ (by omega),
      or_low (by omega)]
    simp [toUChar]
    omega

theorem firstUnit_triple (last : Bool) : firstUnit combinesForward pair last &&& comp1Triple =
    if isTriple combinesForward pair then 1 else 0 := by
  have heven := keyOf_even pair.trail
  unfold comp1Triple firstUnit key
  rw [and_low _ 1 1 rfl]
  split_ifs <;> omega

theorem firstUnit_key (hvalid : pair.Valid) (last : Bool) :
    firstUnit combinesForward pair last &&& comp1TrailMask = pair.key := by
  have heven := keyOf_even pair.trail
  have hlt := keyOf_lt hvalid.trail_le
  unfold comp1TrailMask firstUnit key
  rw [and_middle (m := 0x7ffe) (show 1 ≤ 15 by decide) rfl]
  split_ifs <;> omega

theorem firstUnit_last (hvalid : pair.Valid) (last : Bool) :
    firstUnit combinesForward pair last &&& comp1LastTuple = 0 ↔ last = false := by
  have hlt := keyOf_lt hvalid.trail_le
  have heven := keyOf_even pair.trail
  unfold comp1LastTuple firstUnit key
  rw [and_middle (m := 0x8000) (show 15 ≤ 16 by decide) rfl]
  split_ifs with htriple hlast hlast <;> simp only [hlast] <;> simp <;> omega

/-- The first unit is compared with an even key, unless it is the last one. -/
theorem firstUnit_lt_iff (heven : key1 % 2 = 0) (hkey1 : key1 < 0x8000) (last : Bool) :
    firstUnit combinesForward pair last < key1 ↔ pair.key < key1 ∧ last = false := by
  have heven' := keyOf_even pair.trail
  unfold firstUnit key
  split_ifs with htriple hlast hlast <;> simp only [hlast] <;> simp <;> omega

theorem tuples_cons (hvalid : pair.Valid) (rest : List CompositionPair) :
    tuples combinesForward (pair :: rest) =
      firstUnit combinesForward pair rest.isEmpty :: secondUnit combinesForward pair ::
        ((if isTriple combinesForward pair then [compositeAndFwd combinesForward pair % 0x10000]
          else []) ++ tuples combinesForward rest) := by
  rw [tuples, tuple_eq hvalid]
  rfl

theorem tuples_drop (hvalid : pair.Valid) (rest : List CompositionPair) :
    (tuples combinesForward (pair :: rest)).drop (2 +
      (firstUnit combinesForward pair rest.isEmpty &&& comp1Triple)) =
        tuples combinesForward rest := by
  rw [firstUnit_triple, tuples_cons hvalid]
  split <;> rfl

theorem length_le_tuples (combinesForward : Nat → Bool) (pairs : List CompositionPair) :
    pairs.length ≤ (tuples combinesForward pairs).length := by
  induction pairs with
  | nil =>
    simp
  | cons pair rest ih =>
    simp [tuples, tuple]
    omega

theorem skipTuples_succ (hvalid : pair.Valid) (heven : key1 % 2 = 0)
    (hkey1 : key1 < 0x8000) (rest : List CompositionPair) (fuel : Nat) :
    skipTuples key1 (fuel + 1) (tuples combinesForward (pair :: rest)) =
      if pair.key < key1 ∧ rest.isEmpty = false then
        skipTuples key1 fuel (tuples combinesForward rest)
      else some (tuples combinesForward (pair :: rest)) := by
  have hfirst : (tuples combinesForward (pair :: rest))[0]? =
      some (firstUnit combinesForward pair rest.isEmpty) := by
    rw [tuples_cons hvalid]
    rfl
  rw [skipTuples, hfirst]
  simp only [Option.bind_eq_bind, Option.bind_some, tuples_drop hvalid,
    firstUnit_lt_iff heven hkey1]

theorem skipTuples_append (heven : key1 % 2 = 0) (hkey1 : key1 < 0x8000)
    (hrest : rest.isEmpty = false)
    (hvalid : ∀ pair ∈ before, pair.Valid) (hbefore : ∀ pair ∈ before, pair.key < key1)
    (fuel : Nat) :
    skipTuples key1 (before.length + fuel) (tuples combinesForward (before ++ rest)) =
      skipTuples key1 fuel (tuples combinesForward rest) := by
  induction before with
  | nil =>
    simp
  | cons pair before ih =>
    have hnext : (before ++ rest).isEmpty = false := by
      rw [List.isEmpty_eq_false_iff] at hrest ⊢
      exact List.append_ne_nil_of_right_ne_nil before hrest
    rw [List.length_cons, show before.length + 1 + fuel = (before.length + fuel) + 1 by omega,
      List.cons_append, skipTuples_succ (hvalid pair (List.mem_cons_self ..)) heven hkey1,
      if_pos ⟨hbefore pair (List.mem_cons_self ..), hnext⟩]
    exact ih (fun q hq => hvalid q (List.mem_cons_of_mem _ hq))
      (fun q hq => hbefore q (List.mem_cons_of_mem _ hq))

/-- What `combine` returns at a pair that has the key. -/
def atPair (combinesForward : Nat → Bool) (pair : CompositionPair) : Int :=
  if isTriple combinesForward pair then
    joinUnits (secondUnit combinesForward pair) (compositeAndFwd combinesForward pair % 0x10000)
  else secondUnit combinesForward pair

theorem keyOf_low (hlow : trail < 0x3400) : keyOf trail = 2 * trail := by
  unfold keyOf
  rw [if_pos hlow]

/-- The search of a trail character below U+3400 ends at a pair that has its key or a larger one, or
at the last one. -/
theorem combine_low (hlow : trail < 0x3400) (hvalid : ∀ q ∈ before, q.Valid) (hpair : pair.Valid)
    (hbefore : ∀ q ∈ before, q.key < 2 * trail) (hstop : 2 * trail ≤ pair.key ∨ rest = []) :
    combine (tuples combinesForward (before ++ pair :: rest)) trail =
      some (if pair.key = 2 * trail then atPair combinesForward pair else -1) := by
  have hlength := length_le_tuples combinesForward (before ++ pair :: rest)
  obtain ⟨extra, hextra⟩ := Nat.exists_eq_add_of_le hlength
  have hkey : toUChar (trail <<< 1) = 2 * trail := by
    unfold toUChar
    rw [Nat.shiftLeft_eq]
    omega
  have hskip : skipTuples (2 * trail)
      ((tuples combinesForward (before ++ pair :: rest)).length + 1)
      (tuples combinesForward (before ++ pair :: rest)) =
        some (tuples combinesForward (pair :: rest)) := by
    rw [hextra, List.length_append, List.length_cons,
      show before.length + (rest.length + 1) + extra + 1 =
        before.length + ((rest.length + 1 + extra) + 1) by omega,
      skipTuples_append (by omega) (by omega) rfl hvalid hbefore,
      skipTuples_succ hpair (by omega) (by omega), if_neg]
    rintro ⟨hless, hmore⟩
    obtain hlarger | rfl := hstop
    · omega
    · contradiction
  unfold combine
  rw [if_pos (show trail < comp1TrailLimit from hlow)]
  simp only [hkey, hskip, Option.bind_eq_bind, Option.bind_some]
  rw [tuples_cons hpair]
  simp only [List.getElem?_cons_zero, Option.bind_some, firstUnit_key hpair, firstUnit_triple]
  unfold atPair
  by_cases hsame : pair.key = 2 * trail
  · rw [if_pos hsame, if_pos hsame.symm]
    split <;> simp
  · rw [if_neg hsame, if_neg (Ne.symm hsame)]
    rfl

/-! ## Trail characters from U+3400 -/

theorem and_not_mask {unit : Nat} (hunit : unit < 0x10000) :
    unit &&& (0xffffffff ^^^ comp2TrailMask) = unit % 0x40 := by
  have hunit' : unit &&& 0xffff = unit := by
    rw [and_low unit 16 0xffff rfl]
    omega
  calc unit &&& (0xffffffff ^^^ comp2TrailMask)
      = unit &&& (0xffff &&& (0xffffffff ^^^ comp2TrailMask)) := by rw [← Nat.and_assoc, hunit']
    _ = unit % 0x40 := and_low unit 6 _ (by decide)

theorem searchTriples_succ (hvalid : pair.Valid) (heven : key1 % 2 = 0)
    (hkey1 : key1 < 0x8000) (key2 : Nat) (rest : List CompositionPair) (fuel : Nat) :
    searchTriples key1 key2 (fuel + 1) (tuples combinesForward (pair :: rest)) =
      if pair.key < key1 ∧ rest.isEmpty = false then
        searchTriples key1 key2 fuel (tuples combinesForward rest)
      else if key1 = pair.key then
        if secondUnit combinesForward pair < key2 then
          if rest.isEmpty = false then
            searchTriples key1 key2 fuel ((tuples combinesForward (pair :: rest)).drop 3)
          else some (-1)
        else if key2 = secondUnit combinesForward pair / 0x40 * 0x40 then
          ((tuples combinesForward (pair :: rest))[2]?).map
            (joinUnits (secondUnit combinesForward pair % 0x40))
        else some (-1)
      else some (-1) := by
  have hfirst : (tuples combinesForward (pair :: rest))[0]? =
      some (firstUnit combinesForward pair rest.isEmpty) := by
    rw [tuples_cons hvalid]
    rfl
  have hsecond : (tuples combinesForward (pair :: rest))[1]? =
      some (secondUnit combinesForward pair) := by
    rw [tuples_cons hvalid]
    rfl
  have hunit := secondUnit_lt combinesForward hvalid
  have hmask : secondUnit combinesForward pair &&& comp2TrailMask =
      secondUnit combinesForward pair / 0x40 * 0x40 :=
    and_high (n := 16) (k := 6) hunit (by decide) rfl
  rw [searchTriples, hfirst]
  simp only [Option.bind_eq_bind, Option.bind_some, tuples_drop hvalid,
    firstUnit_lt_iff heven hkey1, firstUnit_key hvalid, hsecond, ne_eq, firstUnit_last hvalid,
    hmask, and_not_mask hunit]
  cases hlist : (tuples combinesForward (pair :: rest))[2]? <;> simp

def Passes (combinesForward : Nat → Bool) (key1 key2 : Nat) (pair : CompositionPair) : Prop :=
  pair.key < key1 ∨
    pair.key = key1 ∧ 0x3400 ≤ pair.trail ∧ secondUnit combinesForward pair < key2

theorem searchTriples_pass (hvalid : pair.Valid) (heven : key1 % 2 = 0)
    (hkey1 : key1 < 0x8000) (hpasses : Passes combinesForward key1 key2 pair)
    (hrest : rest.isEmpty = false) (fuel : Nat) :
    searchTriples key1 key2 (fuel + 1) (tuples combinesForward (pair :: rest)) =
      searchTriples key1 key2 fuel (tuples combinesForward rest) := by
  rw [searchTriples_succ hvalid heven hkey1]
  obtain hless | ⟨hsame, hhigh, hsecond⟩ := hpasses
  · rw [if_pos ⟨hless, hrest⟩]
  have htriple : isTriple combinesForward pair = true := by
    simp [isTriple, hhigh]
  rw [if_neg (by omega), if_pos hsame.symm, if_pos hsecond, if_pos hrest,
    tuples_cons hvalid, if_pos htriple]
  rfl

theorem searchTriples_append (heven : key1 % 2 = 0) (hkey1 : key1 < 0x8000)
    (hrest : rest.isEmpty = false) (hvalid : ∀ q ∈ before, q.Valid)
    (hbefore : ∀ q ∈ before, Passes combinesForward key1 key2 q) (fuel : Nat) :
    searchTriples key1 key2 (before.length + fuel) (tuples combinesForward (before ++ rest)) =
      searchTriples key1 key2 fuel (tuples combinesForward rest) := by
  induction before with
  | nil =>
    simp
  | cons pair before ih =>
    have hnext : (before ++ rest).isEmpty = false := by
      rw [List.isEmpty_eq_false_iff] at hrest ⊢
      exact List.append_ne_nil_of_right_ne_nil before hrest
    rw [List.length_cons, show before.length + 1 + fuel = (before.length + fuel) + 1 by omega,
      List.cons_append, searchTriples_pass (hvalid pair (List.mem_cons_self ..)) heven hkey1
        (hbefore pair (List.mem_cons_self ..)) hnext]
    exact ih (fun q hq => hvalid q (List.mem_cons_of_mem _ hq))
      (fun q hq => hbefore q (List.mem_cons_of_mem _ hq))

theorem keyOf_high (hhigh : 0x3400 ≤ trail) : keyOf trail = 0x3400 + 2 * (trail / 0x400) := by
  unfold keyOf
  rw [if_neg (by omega)]

/-- The search of a trail character from U+3400 comes to the first pair that it does not go over. -/
theorem combine_high {trail : Nat} (hhigh : 0x3400 ≤ trail) (htrail : trail ≤ 0x10ffff)
    {before : List CompositionPair} (pair : CompositionPair) (rest : List CompositionPair)
    (hvalid : ∀ q ∈ before, q.Valid)
    (hbefore : ∀ q ∈ before, Passes combinesForward (keyOf trail) (trail % 0x400 * 0x40) q) :
    ∃ fuel, combine (tuples combinesForward (before ++ pair :: rest)) trail =
      searchTriples (keyOf trail) (trail % 0x400 * 0x40) (fuel + 1)
        (tuples combinesForward (pair :: rest)) := by
  have hlength := length_le_tuples combinesForward (before ++ pair :: rest)
  obtain ⟨extra, hextra⟩ := Nat.exists_eq_add_of_le hlength
  have hmask : trail / 2 ^ 9 &&& (0xffffffff ^^^ 1) = trail / 2 ^ 9 / 2 ^ 1 * 2 ^ 1 :=
    and_high (n := 32) (by omega) (by decide) (by decide)
  have hkey1 : toUChar (comp1TrailLimit +
      (trail >>> comp1TrailShift &&& (0xffffffff ^^^ comp1Triple))) = keyOf trail := by
    unfold toUChar comp1TrailLimit comp1TrailShift comp1Triple
    rw [Nat.shiftRight_eq_div_pow, hmask, keyOf_high hhigh]
    omega
  have hkey2 : toUChar (trail <<< comp2TrailShift) = trail % 0x400 * 0x40 := by
    unfold toUChar comp2TrailShift
    rw [Nat.shiftLeft_eq]
    omega
  refine ⟨rest.length + 1 + extra, ?_⟩
  unfold combine
  rw [if_neg (show ¬ trail < comp1TrailLimit from Nat.not_lt.mpr hhigh), hkey1, hkey2, hextra,
    List.length_append, List.length_cons, show before.length + (rest.length + 1) + extra + 1 =
      before.length + ((rest.length + 1 + extra) + 1) by omega]
  exact searchTriples_append (keyOf_even trail) (keyOf_lt htrail) rfl hvalid hbefore _

/-- A composite is added after the composites that it combines into. -/
def visit (combinesForward : Nat → Bool) (addForward : Nat → List Nat → Option (List Nat))
    (set : List Nat) (pair : CompositionPair) : Option (List Nat) :=
  (if combinesForward pair.composite then addForward pair.composite set else some set).map
    (· ++ [pair.composite])

theorem addTuples_succ (hvalid : pair.Valid) (addForward : Nat → List Nat → Option (List Nat))
    (rest : List CompositionPair) (fuel : Nat) (set : List Nat) :
    addTuples addForward (fuel + 1) (tuples combinesForward (pair :: rest)) set =
      (visit combinesForward addForward set pair).bind fun set =>
        if rest.isEmpty = false then addTuples addForward fuel (tuples combinesForward rest) set
        else some set := by
  have hcomposite := compositeAndFwd_lt combinesForward hvalid
  have hunit := secondUnit_lt combinesForward hvalid
  have hfirst : (tuples combinesForward (pair :: rest))[0]? =
      some (firstUnit combinesForward pair rest.isEmpty) := by
    rw [tuples_cons hvalid]
    rfl
  have hread : nextTuple (firstUnit combinesForward pair rest.isEmpty)
      (tuples combinesForward (pair :: rest)) =
        some (compositeAndFwd combinesForward pair, tuples combinesForward rest) := by
    unfold nextTuple
    rw [firstUnit_triple, tuples_cons hvalid]
    by_cases htriple : isTriple combinesForward pair = true
    · rw [if_pos htriple, if_pos htriple]
      simp
      rw [and_not_mask hunit, or_low (by omega)]
      unfold isTriple at htriple
      unfold secondUnit
      simp only [Bool.or_eq_true, decide_eq_true_eq] at htriple
      split_ifs <;> omega
    · rw [if_neg htriple, if_neg htriple]
      unfold isTriple at htriple
      simp only [Bool.or_eq_true, decide_eq_true_eq, not_or] at htriple
      unfold secondUnit
      simp [Nat.not_le.mp htriple.1, Nat.not_lt.mp htriple.2]
  have hforward : (compositeAndFwd combinesForward pair &&& 1 ≠ 0) ↔
      combinesForward pair.composite = true := by
    rw [and_low _ 1 1 rfl, compositeAndFwd_eq]
    split <;> simp [*]
  have hchar : compositeAndFwd combinesForward pair >>> 1 = pair.composite := by
    rw [Nat.shiftRight_eq_div_pow, compositeAndFwd_eq]
    split <;> omega
  rw [addTuples, hfirst]
  simp only [Option.bind_eq_bind, Option.bind_some, hread, hforward, hchar,
    firstUnit_last hvalid]
  unfold visit
  split
  · cases addForward pair.composite set <;> rfl
  · rfl

theorem addTuples_eq (hne : pairs ≠ []) (hvalid : ∀ q ∈ pairs, q.Valid)
    (addForward : Nat → List Nat → Option (List Nat)) (fuel : Nat) (set : List Nat)
    (hfuel : pairs.length ≤ fuel) : addTuples addForward fuel (tuples combinesForward pairs) set =
      pairs.foldlM (visit combinesForward addForward) set := by
  induction pairs generalizing fuel set with
  | nil =>
    contradiction
  | cons pair rest ih =>
    obtain ⟨fuel, rfl⟩ := Nat.exists_eq_add_of_le hfuel
    rw [List.length_cons, show rest.length + 1 + fuel = (rest.length + fuel) + 1 by omega,
      addTuples_succ (hvalid pair (List.mem_cons_self ..)), List.foldlM_cons]
    congr 1
    funext set
    cases rest with
    | nil =>
      rfl
    | cons next rest =>
      exact ih (by simp) (fun q hq => hvalid q (List.mem_cons_of_mem _ hq)) _ _ (by omega)

def expected (combinesForward : Nat → Bool) (pairs : List CompositionPair) (trail : Nat) : Int :=
  match pairs.find? (fun pair => pair.trail = trail) with
  | some pair => compositeAndFwd combinesForward pair
  | none => -1

def Sorted (pairs : List CompositionPair) : Prop :=
  pairs.Pairwise fun p q => p.trail < q.trail

theorem trail_lt_of_mem (hsorted : Sorted (before ++ pair :: rest)) :
    (∀ q ∈ before, q.trail < pair.trail) ∧ ∀ q ∈ rest, pair.trail < q.trail := by
  unfold Sorted at hsorted
  rw [List.pairwise_append, List.pairwise_cons] at hsorted
  exact ⟨fun q hq => hsorted.2.2 q hq pair (List.mem_cons_self ..), hsorted.2.1.1⟩

theorem expected_of_mem (hsorted : Sorted pairs) (hmem : pair ∈ pairs) :
    expected combinesForward pairs pair.trail = compositeAndFwd combinesForward pair := by
  obtain ⟨before, rest, rfl⟩ := List.append_of_mem hmem
  have horder := trail_lt_of_mem hsorted
  have hbefore : before.find? (fun q => q.trail = pair.trail) = none := by
    rw [List.find?_eq_none]
    intro q hq
    have := horder.1 q hq
    simp
    omega
  unfold expected
  simp [List.find?_append, hbefore]

theorem expected_of_not_mem (hother : ∀ q ∈ pairs, q.trail ≠ trail) :
    expected combinesForward pairs trail = -1 := by
  have hnone : pairs.find? (fun q => q.trail = trail) = none := by
    rw [List.find?_eq_none]
    intro q hq
    simpa using hother q hq
  unfold expected
  rw [hnone]

/-- The first pair that a search does not go over, or the last pair. -/
theorem exists_stop (P : CompositionPair → Prop) (hne : pairs ≠ []) :
    ∃ before pair rest, pairs = before ++ pair :: rest ∧ (∀ q ∈ before, P q) ∧
      (¬ P pair ∨ rest = []) := by
  induction pairs with
  | nil =>
    contradiction
  | cons first pairs ih =>
    by_cases hfirst : P first ∧ pairs ≠ []
    · obtain ⟨before, pair, rest, rfl, hbefore, hstop⟩ := ih hfirst.2
      refine ⟨first :: before, pair, rest, rfl, ?_, hstop⟩
      intro q hq
      obtain rfl | hq := List.mem_cons.mp hq
      · exact hfirst.1
      · exact hbefore q hq
    · refine ⟨[], first, pairs, rfl, by simp, ?_⟩
      rw [not_and_or, not_not] at hfirst
      exact hfirst

end Icu.Normalizer
