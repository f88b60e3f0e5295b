import Icu.BmpSet.TablesProof

/-! # A frozen set represents its list

The constructor leaves tables that answer for every code point as the list does. Where a
table position stands for an ill-formed byte sequence, it answers for U+FFFD.
-/

namespace Icu.BMPSet

open UnicodeSet Lib Lib.InversionList

variable {i c : Nat} {list : List Int}

def start4k (i : Nat) : Nat := if i = 0 then 0x800 else i * 0x1000

theorem start4k_mono {j : Nat} (h : i ≤ j) : start4k i ≤ start4k j := by
  unfold start4k
  split <;> split <;> omega

structure IsStarts (list : List Int) (starts : Nat → Nat) : Prop where
  rank_eq : ∀ i ≤ 0x10, starts i = rank list (start4k i)
  last : starts 0x11 = list.length - 1

theorem fill4kStarts_spec (hl : IsInversionList list) :
    ∀ (count i : Nat) (starts : Nat → Nat), 1 ≤ i → i + count ≤ 0x11 →
      (∀ j < i, starts j = rank list (start4k j)) →
      ∃ starts', fill4kStarts list count i starts = some starts' ∧
        ∀ j < i + count, starts' j = rank list (start4k j) := by
  have hhigh : unicodesetHigh = 0x110000 := rfl
  intro count
  induction count with
  | zero => exact fun i starts _ _ h => ⟨starts, rfl, h⟩
  | succ count ih =>
    intro i starts hi hle h
    have hstart : (i <<< 12 : Nat) = start4k i := by
      rw [start4k, if_neg (by omega), Nat.shiftLeft_eq]
    have hlt : (start4k i : Int) < unicodesetHigh := by
      have : start4k i = i * 0x1000 := if_neg (by omega)
      omega
    have hr := hl.rank_lt_length hlt
    have hmono : (start4k (i - 1) : Int) ≤ start4k i := Int.ofNat_le.mpr (start4k_mono (by omega))
    have hfind : findCodePoint list (i <<< 12 : Nat) (starts (i - 1)) (list.length - 1) =
        some (rank list (start4k i)) := by
      rw [hstart, h (i - 1) (by omega)]
      exact searchCodePoint_eq_rank hl.increasing (rank_mono list hmono) (by omega) (by omega)
    obtain ⟨starts', hout, hs⟩ := ih (i + 1) (Function.update starts i (rank list (start4k i)))
      (by omega) (by omega) (fun j hj => by
        by_cases hji : j = i
        · subst hji
          simp
        · simpa [hji] using h j (by omega))
    refine ⟨starts', ?_, fun j hj => hs j (by omega)⟩
    simp only [fill4kStarts, hfind]
    exact hout

theorem init4kStarts_spec (hl : IsInversionList list) :
    ∃ starts, init4kStarts list = some starts ∧ IsStarts list starts := by
  have hlt : (0x800 : Int) < unicodesetHigh := by decide
  have hr := hl.rank_lt_length hlt
  have hfirst : findCodePoint list 0x800 0 (list.length - 1) = some (rank list 0x800) :=
    searchCodePoint_eq_rank hl.increasing (Nat.zero_le _) (by omega) (by omega)
  obtain ⟨starts, hout, hs⟩ := fill4kStarts_spec hl 0x10 1
    (Function.update (fun _ => 0) 0 (rank list 0x800)) (by omega) (by omega) (fun j hj => by
      have : j = 0 := by omega
      subst this
      rfl)
  refine ⟨Function.update starts 0x11 (list.length - 1), ?_, fun i hi => ?_, by simp⟩
  · simp [init4kStarts, hfirst, hout]
  have hne : i ≠ 0x11 := by omega
  simpa [hne] using hs i (by omega)

theorem containsSlow_eq {list : List Int} (hl : IsInversionList list) {starts : Nat → Nat}
    (hs : IsStarts list starts) {i j : Nat} (hi : i ≤ 0x10) (hj : j ≤ 0x11) {c : Nat}
    (h0 : start4k i ≤ c) (h1 : c < 0x110000) (hc : j ≤ 0x10 → c < start4k j) :
    containsSlow list c (starts i) (starts j) = some (covers list c) := by
  have hhigh : unicodesetHigh = 0x110000 := rfl
  have hlt : (c : Int) < unicodesetHigh := by omega
  have hr := hl.rank_lt_length hlt
  have hlo : starts i ≤ rank list c := by
    rw [hs.rank_eq i hi]
    exact rank_mono list (Int.ofNat_le.mpr h0)
  have hhi : rank list c ≤ starts j ∧ starts j < list.length := by
    by_cases hj' : j ≤ 0x10
    · rw [hs.rank_eq j hj']
      have hj4 : start4k j ≤ start4k 0x10 := start4k_mono hj'
      have : start4k 0x10 = 0x10000 := rfl
      exact ⟨rank_mono list (Int.ofNat_le.mpr (Nat.le_of_lt (hc hj'))),
        hl.rank_lt_length (by omega)⟩
    · have : j = 0x11 := by omega
      rw [this, hs.last]
      omega
  rw [containsSlow, findCodePoint, searchCodePoint_eq_rank hl.increasing hlo hhi.1 hhi.2,
    covers_eq_rank, Option.map_some, Nat.and_one_is_mod]
  rfl

/-- The byte sequences below the range of a three-byte lead byte, and surrogates. -/
def illegal3 (c : Nat) : Bool := decide (c < 0x800) || decide (0xd800 ≤ c ∧ c < 0xe000)

structure Represents (set : BMPSet) (list : List Int) : Prop where
  valid : IsInversionList list
  list_eq : set.list = list
  starts : IsStarts list set.list4kStarts
  ascii : ∀ c < 0x80, set.asciiBytes c = covers list (c : Nat)
  trail : ∀ c, 0x80 ≤ c → c < 0xc0 → set.asciiBytes c = covers list 0xfffd
  twoByte : ∀ c < 0x800, set.testTable7FF c = covers list (if c < 0x80 then 0xfffd else (c : Int))
  threeByte : ∀ c < 0x10000, set.containsBMP c (c / 64 % 64) (c / 4096) =
    some (covers list (if illegal3 c then 0xfffd else (c : Int)))

theorem and_one_shiftLeft_bne_zero (x : BitVec 32) {k : Nat} (hk : k < 32) :
    (x &&& (1#32 <<< k) != 0#32) = x.getLsbD k := by
  have hmask : x &&& (1#32 <<< k) = if x.getLsbD k then 1#32 <<< k else 0#32 := by
    apply BitVec.eq_of_getLsbD_eq
    intro i hi
    rw [BitVec.getLsbD_and, getLsbD_one_shiftLeft hi]
    by_cases h : i = k
    · subst h
      cases hx : x.getLsbD i <;> simp [getLsbD_one_shiftLeft hi]
    · cases hx : x.getLsbD k <;> simp [getLsbD_one_shiftLeft hi, h]
  have hne : (1#32 <<< k != 0#32) = true := by
    rw [bne_iff_ne]
    intro h
    have := getLsbD_one_shiftLeft (k := k) hk
    rw [h] at this
    simp at this
  rw [hmask]
  cases x.getLsbD k
  · simp
  · simpa using hne

theorem testTable7FF_eq (set : BMPSet) (hc : c < 0x800) :
    set.testTable7FF c = bitAt set.table7FF c := by
  have hdiv : c >>> 6 = c / 64 := Nat.shiftRight_eq_div_pow c 6
  have hmod : c &&& 0x3f = c % 64 := Bits.and_low c 6 0x3f (by decide)
  rw [testTable7FF, hdiv, hmod, and_one_shiftLeft_bne_zero _ (by omega), bitAt]

theorem twoBits_eq (set : BMPSet) (block : Nat) : set.twoBits (block % 64) (block / 64) =
      (if bitAt set.bmpBlockBits block then 1#32 else 0#32) |||
        (if bitAt set.bmpBlockBits (block + 0x400) then 0x10000#32 else 0#32) := by
  have hmask : ∀ i < 32, (0x10001#32).getLsbD i = decide (i = 0 ∨ i = 16) := by decide
  have h1 : ∀ i < 32, (1#32).getLsbD i = decide (i = 0) := by decide
  have h16 : ∀ i < 32, (0x10000#32).getLsbD i = decide (i = 16) := by decide
  have hhi : bitAt set.bmpBlockBits (block + 0x400) =
      (set.bmpBlockBits (block % 64)).getLsbD (block / 64 + 16) := by
    rw [bitAt]
    congr 2 <;> omega
  have hif : ∀ (b : Bool) (x : BitVec 32) (i : Nat),
      (if b then x else 0#32).getLsbD i = (b && x.getLsbD i) := by
    intro b x i
    cases b <;> simp
  rw [hhi, bitAt]
  apply BitVec.eq_of_getLsbD_eq
  intro i hi
  rw [twoBits, BitVec.getLsbD_and, hmask i hi, BitVec.getLsbD_or, BitVec.getLsbD_ushiftRight, hif,
    hif, h1 i hi, h16 i hi]
  by_cases hi0 : i = 0
  · simp [hi0]
  by_cases hi16 : i = 16
  · simp [hi16]
  · simp [hi0, hi16]

/-- A block that is not mixed answers by itself. -/
theorem containsBMP_of_not_mixed (set : BMPSet)
    (h : bitAt set.bmpBlockBits (c / 64 + 0x400) = false) :
    set.containsBMP c (c / 64 % 64) (c / 4096) = some (bitAt set.bmpBlockBits (c / 64)) := by
  have hlead : c / 4096 = c / 64 / 64 := by omega
  rw [containsBMP, hlead, twoBits_eq set (c / 64), h]
  cases bitAt set.bmpBlockBits (c / 64) <;> simp

theorem containsBMP_of_mixed (set : BMPSet) (h : bitAt set.bmpBlockBits (c / 64 + 0x400) = true) :
    set.containsBMP c (c / 64 % 64) (c / 4096) =
      containsSlow set.list c (set.list4kStarts (c / 4096)) (set.list4kStarts (c / 4096 + 1)) := by
  have hlead : c / 4096 = c / 64 / 64 := by omega
  rw [containsBMP, hlead, twoBits_eq set (c / 64), h]
  cases bitAt set.bmpBlockBits (c / 64) <;> simp

theorem getLsbD_lead0xED (hi : i < 32) :
    (~~~(0x10001#32 <<< 0xd)).getLsbD i = !decide (i = 0xd ∨ i = 0x1d) := by
  rw [BitVec.getLsbD_not, getLsbD_mixed hi, decide_eq_true hi, Bool.true_and]

theorem overrideIllegal_spec {set : BMPSet} {fffd : Bool}
    (h : containsSlow set.list 0xfffd (set.list4kStarts 0xf) (set.list4kStarts 0x10) = some fffd) :
    ∃ out, set.overrideIllegal = some out ∧ out.list = set.list ∧
      out.list4kStarts = set.list4kStarts ∧
      (∀ c, out.asciiBytes c = (set.asciiBytes c || (fffd && decide (0x80 ≤ c ∧ c < 0xc0)))) ∧
      (∀ c < 0x800, bitAt out.table7FF c = (bitAt set.table7FF c || (fffd && decide (c < 0x80)))) ∧
      ∀ index < 0x800, bitAt out.bmpBlockBits index =
        if 32 ≤ index % 64 ∧ index / 64 = 0xd then fffd
        else if 32 ≤ index % 64 ∧ index / 64 = 0x1d then false
        else (bitAt set.bmpBlockBits index || (fffd && decide (index < 32))) := by
  have h3 : ∀ i < 32, (3#32).getLsbD i = decide (i < 2) := by decide
  have h1 : ∀ i < 32, (1#32).getLsbD i = decide (i = 0) := by decide
  cases fffd with
  | true =>
    simp only [overrideIllegal, h, Option.bind_eq_bind, Option.bind_some, if_true,
      Option.pure_def]
    refine ⟨_, rfl, rfl, rfl, fun c => ?_, fun c hc => ?_, fun index hi => ?_⟩
    · by_cases hc : 0x80 ≤ c ∧ c < 0xc0 <;> simp [hc]
    · have hmod : c % 64 < 64 := Nat.mod_lt _ (by decide)
      simp only [bitAt, if_pos hmod, BitVec.getLsbD_or, h3 _ (show c / 64 < 32 by omega),
        Bool.true_and]
      congr 1
      rw [decide_eq_decide]
      omega
    · have hi32 : index / 64 < 32 := by omega
      simp only [bitAt, Bool.true_and]
      by_cases hlow : index % 64 < 32
      · rw [if_pos hlow, if_neg (by omega), if_neg (by omega), BitVec.getLsbD_or, h1 _ hi32]
        congr 1
        rw [decide_eq_decide]
        omega
      have hno : ¬ index < 32 := by omega
      rw [if_neg hlow, if_pos (Nat.mod_lt _ (by decide)), BitVec.getLsbD_or,
        BitVec.getLsbD_and, getLsbD_lead0xED hi32, getLsbD_one_shiftLeft hi32,
        decide_eq_false hno, Bool.or_false]
      by_cases hd : index / 64 = 0xd
      · rw [if_pos ⟨by omega, hd⟩, decide_eq_true hd, Bool.or_true]
      rw [if_neg (fun h => hd h.2), decide_eq_false hd, Bool.or_false]
      by_cases hd' : index / 64 = 0x1d
      · rw [if_pos ⟨by omega, hd'⟩]
        simp [hd']
      · rw [if_neg (fun h => hd' h.2)]
        simp [hd, hd']
  | false =>
    simp only [overrideIllegal, h, Option.bind_eq_bind, Option.bind_some, Bool.false_eq_true,
      if_false, Option.pure_def]
    refine ⟨_, rfl, rfl, rfl, fun c => by simp, fun c hc => by simp, fun index hi => ?_⟩
    have hi32 : index / 64 < 32 := by omega
    simp only [bitAt, Bool.false_and, Bool.or_false]
    by_cases hhigh : 32 ≤ index % 64
    · rw [if_pos ⟨hhigh, Nat.mod_lt _ (by decide)⟩, BitVec.getLsbD_and, getLsbD_lead0xED hi32]
      by_cases hd : index / 64 = 0xd
      · rw [if_pos ⟨hhigh, hd⟩]
        simp [hd]
      rw [if_neg (fun h => hd h.2)]
      by_cases hd' : index / 64 = 0x1d
      · rw [if_pos ⟨hhigh, hd'⟩]
        simp [hd']
      · rw [if_neg (fun h => hd' h.2)]
        simp [hd, hd']
    · rw [if_neg (fun h => hhigh h.1), if_neg (fun h => hhigh h.1), if_neg (fun h => hhigh h.1)]

theorem new_represents (hl : IsInversionList list) :
    ∃ set, BMPSet.new list = some set ∧ Represents set list := by
  obtain ⟨starts, hstarts, hs⟩ := init4kStarts_spec hl
  obtain ⟨bytes, table, bits, hbits, hascii, h7ff, hlow, hblock⟩ := initBits_spec hl
  have hfffd : containsSlow list 0xfffd (starts 0xf) (starts 0x10) = some (covers list 0xfffd) :=
    @containsSlow_eq _ hl _ hs 0xf 0x10 (by omega) (by omega) 0xfffd (by decide) (by omega)
      (fun _ => by decide)
  obtain ⟨out, hout, hlist, h4k, hascii', h7ff', hblock'⟩ :=
    @overrideIllegal_spec ⟨bytes, table, bits, starts, list⟩ _ hfffd
  refine ⟨out, by simp [BMPSet.new, hstarts, hbits, hout], hl, hlist, h4k ▸ hs, fun c hc => ?_,
    fun c h0 hc => ?_, fun c hc => ?_, fun c hc => ?_⟩
  · have hno : ¬ (0x80 ≤ c ∧ c < 0xc0) := by omega
    simp only [hascii', hascii, hc, hno, decide_true, decide_false, Bool.true_and, Bool.and_false,
      Bool.or_false]
  · have hno : ¬ c < 0x80 := by omega
    simp only [hascii', hascii, hno, h0, hc, and_self, decide_true, decide_false, Bool.false_and,
      Bool.and_true, Bool.false_or]
  · rw [testTable7FF_eq out hc, h7ff' c hc, h7ff c hc]
    by_cases h80 : c < 0x80
    · have hno : ¬ 0x80 ≤ c := by omega
      simp [h80, hno]
    · have hge : 0x80 ≤ c := by omega
      simp [h80, hge]
  · have hmix := hblock' (c / 64 + 0x400) (by omega)
    have hval := hblock' (c / 64) (by omega)
    simp only at hmix hval
    by_cases hill : illegal3 c
    · -- A position of an illegal sequence is never mixed.
      rw [if_pos hill]
      simp only [illegal3, Bool.or_eq_true, decide_eq_true_eq] at hill
      rcases hill with hc0 | hsur
      · obtain ⟨hv0, hm0⟩ := hlow (c / 64) (by omega)
        rw [if_neg (by omega), if_neg (by omega), hm0, decide_eq_false (by omega), Bool.and_false,
          Bool.or_false] at hmix
        rw [if_neg (by omega), if_neg (by omega), hv0, decide_eq_true (by omega), Bool.and_true,
          Bool.false_or] at hval
        rw [containsBMP_of_not_mixed out hmix, hval]
      · rw [if_neg (by omega), if_pos (by omega)] at hmix
        rw [if_pos (by omega)] at hval
        rw [containsBMP_of_not_mixed out hmix, hval]
    rw [if_neg hill]
    simp only [illegal3, Bool.or_eq_true, decide_eq_true_eq] at hill
    rw [if_neg (by omega), if_neg (by omega), decide_eq_false (by omega), Bool.and_false,
      Bool.or_false] at hmix
    rw [if_neg (by omega), if_neg (by omega), decide_eq_false (by omega), Bool.and_false,
      Bool.or_false] at hval
    cases hm : bitAt bits (c / 64 + 0x400) with
    | true =>
      rw [containsBMP_of_mixed out (hmix.trans hm), hlist, h4k]
      refine containsSlow_eq hl hs (by omega) (by omega) ?_ (by omega) fun _ => ?_
      · unfold start4k
        split <;> omega
      · rw [start4k, if_neg (by omega)]
        omega
    | false =>
      rw [containsBMP_of_not_mixed out (hmix.trans hm), hval, hblock c (by omega) hc hm]

end Icu.BMPSet
