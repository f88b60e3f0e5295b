import Icu.UnicodeSet.Serialized

/-! # When serialized sets can be read back

The array has a BMP part and a supplementary part. The ranges can always be read back. A
code point is looked up in the part for its plane, and the look-up reads the first and the
last value of that part: it works exactly when neither part is empty.
-/

namespace Icu

open UnicodeSet Utf16 Lib Lib.InversionList

/-- The list of a set falls into BMP values, supplementary values, and the sentinel. -/
structure Parts (list bmp supp : List Int) : Prop where
  eq : list = bmp ++ supp ++ [unicodesetHigh]
  bmp_bounds : ∀ x ∈ bmp, 0 ≤ x ∧ x ≤ 0xffff
  supp_bounds : ∀ x ∈ supp, 0x10000 ≤ x ∧ x ≤ 0x10ffff
  increasing : (bmp ++ supp ++ [unicodesetHigh]).Pairwise (· < ·)

/-- A value above the BMP has only such values behind it. -/
private theorem dropWhile_gt {l : List Int} (hs : l.Pairwise (· < ·)) :
    ∀ x ∈ l.dropWhile (fun x => decide (x ≤ 0xffff)), 0xffff < x := by
  induction l with
  | nil => simp
  | cons y ys ih =>
    obtain ⟨hy, hys⟩ := List.pairwise_cons.mp hs
    rw [List.dropWhile_cons]
    split
    · exact ih hys
    · next hgt =>
      simp only [decide_eq_true_eq, Int.not_le] at hgt
      intro x hx
      rcases List.mem_cons.mp hx with rfl | hx
      · exact hgt
      have := hy x hx
      omega

theorem exists_parts {list : List Int} (hl : IsInversionList list) :
    ∃ bmp supp, Parts list bmp supp := by
  have hhigh : unicodesetHigh = 0x110000 := rfl
  have hlow : unicodesetLow = 0 := rfl
  obtain ⟨body, rfl, hb⟩ := hl.eq_append
  have hp := hl.increasing
  have hbody := (List.pairwise_append.mp hp).1
  refine ⟨body.takeWhile (fun x => decide (x ≤ 0xffff)),
    body.dropWhile (fun x => decide (x ≤ 0xffff)), ?_, fun x hx => ?_, fun x hx => ?_, ?_⟩
  · rw [List.takeWhile_append_dropWhile]
  · have hmem := List.takeWhile_subset _ hx
    have hle := List.mem_takeWhile_imp hx
    have h0 := hl.nonneg x (by simp [hmem])
    rw [decide_eq_true_eq] at hle
    omega
  · have hmem := List.dropWhile_subset _ hx
    have hgt := dropWhile_gt hbody x hx
    have := hb x hmem
    omega
  · rwa [List.takeWhile_append_dropWhile]

namespace Parts

variable {list bmp supp : List Int}

section

variable (h : Parts list bmp supp)
include h

theorem length_eq : list.length - 1 = bmp.length + supp.length := by
  rw [h.eq]
  simp

theorem bmp_increasing : bmp.Pairwise (· < ·) :=
  (List.pairwise_append.mp (List.pairwise_append.mp h.increasing).1).1

theorem supp_increasing : supp.Pairwise (· < ·) :=
  (List.pairwise_append.mp (List.pairwise_append.mp h.increasing).1).2.1

/-- Below the supplementary planes only the BMP part counts. -/
theorem rank_bmp {c : Nat} (hc : c ≤ 0xffff) : rank list c = rank bmp c := by
  have hhigh : unicodesetHigh = 0x110000 := rfl
  have hsupp : rank supp (c : Int) = 0 := by
    rw [rank, List.countP_eq_zero]
    intro x hx
    have := h.supp_bounds x hx
    simp only [decide_eq_true_eq]
    omega
  have hno : ¬ unicodesetHigh ≤ (c : Int) := by omega
  unfold rank at hsupp ⊢
  rw [h.eq, List.countP_append, List.countP_append, hsupp]
  simp [hno]

theorem rank_supp {c : Nat} (h0 : 0x10000 ≤ c) (h1 : c ≤ 0x10ffff) :
    rank list c = bmp.length + rank supp c := by
  have hhigh : unicodesetHigh = 0x110000 := rfl
  have hbmp : rank bmp (c : Int) = bmp.length := by
    rw [rank, List.countP_eq_length]
    intro x hx
    have := h.bmp_bounds x hx
    simp only [decide_eq_true_eq]
    omega
  have hno : ¬ unicodesetHigh ≤ (c : Int) := by omega
  unfold rank at hbmp ⊢
  rw [h.eq, List.countP_append, List.countP_append, hbmp]
  simp [hno]

end

end Parts

def arrayUnits (bmp supp : List Int) : List UInt16 :=
  bmp.map lowUnit ++ supp.flatMap fun x => [highUnit x, lowUnit x]

def serializedParts (bmp supp : List Int) : USerializedSet :=
  ⟨arrayUnits bmp supp, bmp.length, bmp.length + 2 * supp.length⟩

theorem getElem?_pairs {α β : Type} (f g : α → β) : ∀ (l : List α) (i : Nat),
    (l.flatMap fun x => [f x, g x])[2 * i]? = l[i]?.map f ∧
      (l.flatMap fun x => [f x, g x])[2 * i + 1]? = l[i]?.map g
  | [], i => by simp
  | x :: xs, 0 => by simp
  | x :: xs, i + 1 => by
    have ih := getElem?_pairs f g xs i
    rw [List.flatMap_cons, show 2 * (i + 1) = 2 * i + 1 + 1 by omega]
    simpa using ih

section Array

variable {bmp supp : List Int} {x : Int} {i : Nat}

theorem read_bmp (hx : bmp[i]? = some x) (hb : 0 ≤ x ∧ x ≤ 0xffff) :
    (serializedParts bmp supp).read i = some x.toNat := by
  obtain ⟨hi, -⟩ := List.getElem?_eq_some_iff.mp hx
  have hget : (arrayUnits bmp supp)[i]? = some (lowUnit x) := by
    rw [arrayUnits, List.getElem?_append_left (by simpa using hi), List.getElem?_map, hx]
    rfl
  have hval : (lowUnit x).toNat = x.toNat := by
    rw [lowUnit, UInt16.toNat_ofNat']
    omega
  simp only [USerializedSet.read, serializedParts, Int.toNat_natCast, hget, Option.map_some, hval]
  rw [if_pos (by omega)]

theorem read_supp (hx : supp[i]? = some x) (hb : 0x10000 ≤ x ∧ x ≤ 0x10ffff) :
    (serializedParts bmp supp).read (bmp.length + 2 * i : Nat) = some (x.toNat / 0x10000) ∧
      (serializedParts bmp supp).read ((bmp.length + 2 * i : Nat) + 1) =
        some (x.toNat % 0x10000) := by
  obtain ⟨hi, -⟩ := List.getElem?_eq_some_iff.mp hx
  obtain ⟨hhi, hlo⟩ := getElem?_pairs highUnit lowUnit supp i
  rw [hx, Option.map_some] at hhi hlo
  have hget : (arrayUnits bmp supp)[bmp.length + 2 * i]? = some (highUnit x) := by
    rw [arrayUnits, List.getElem?_append_right (by simp), List.length_map, Nat.add_sub_cancel_left,
      hhi]
  have hget' : (arrayUnits bmp supp)[bmp.length + 2 * i + 1]? = some (lowUnit x) := by
    rw [arrayUnits, List.getElem?_append_right (by simp; omega), List.length_map,
      Nat.add_assoc, Nat.add_sub_cancel_left, hlo]
  have hval : (highUnit x).toNat = x.toNat / 0x10000 := by
    rw [highUnit, UInt16.toNat_ofNat']
    omega
  have hval' : (lowUnit x).toNat = x.toNat % 0x10000 := by
    rw [lowUnit, UInt16.toNat_ofNat']
    omega
  constructor
  · simp only [USerializedSet.read, serializedParts, Int.toNat_natCast, hget, Option.map_some, hval]
    rw [if_pos (by omega)]
  have hidx : (((bmp.length + 2 * i : Nat) : Int) + 1).toNat = bmp.length + 2 * i + 1 := by omega
  simp only [USerializedSet.read, serializedParts, hidx, hget', Option.map_some, hval']
  rw [if_pos (by omega)]

theorem readPair_supp (hx : supp[i]? = some x) (hb : 0x10000 ≤ x ∧ x ≤ 0x10ffff) :
    (serializedParts bmp supp).readPair (bmp.length + 2 * i : Nat) = some x := by
  obtain ⟨h1, h2⟩ := @read_supp bmp supp x i hx hb
  have hor : (x.toNat / 0x10000) <<< 16 ||| (x.toNat % 0x10000) = x.toNat := by
    rw [Bits.or_low (by omega)]
    omega
  simp only [USerializedSet.readPair, h1, h2, Option.bind_eq_bind, Option.bind_some, hor]
  rw [Int.toNat_of_nonneg (by omega)]
  rfl

theorem belowPair_supp (hx : supp[i]? = some x) (hb : 0x10000 ≤ x ∧ x ≤ 0x10ffff) (c : Nat) :
    (serializedParts bmp supp).belowPair (c / 0x10000) (c % 0x10000) (bmp.length + 2 * i : Nat) =
      some (decide ((c : Int) < x)) := by
  obtain ⟨h1, h2⟩ := @read_supp bmp supp x i hx hb
  simp only [USerializedSet.belowPair, h1, h2, Option.bind_eq_bind, Option.bind_some]
  by_cases hlt : c / 0x10000 < x.toNat / 0x10000
  · rw [if_pos hlt, decide_eq_true (by omega)]
    rfl
  rw [if_neg hlt]
  by_cases heq : c / 0x10000 = x.toNat / 0x10000
  · rw [if_pos heq]
    congr 1
    rw [decide_eq_decide]
    omega
  · rw [if_neg heq, decide_eq_false (by omega)]
    rfl

end Array

section Search

variable {list bmp supp : List Int} {c : Nat}

section

variable (h : Parts list bmp supp)
include h

theorem searchBmp_eq : ∀ (fuel lo hi : Nat), lo < rank bmp c →
    rank bmp c ≤ hi → hi < bmp.length → hi - lo < fuel →
      (serializedParts bmp supp).searchBmp c fuel lo hi = some ((rank bmp c : Nat) : Int) := by
  intro fuel
  induction fuel with
  | zero => omega
  | succ fuel ih =>
    intro lo hi hlo hhi hlen hf
    have hmid : ((lo : Int) + hi) / 2 = ((lo + hi) / 2 : Nat) := by omega
    simp only [USerializedSet.searchBmp, hmid]
    by_cases hdone : (lo + hi) / 2 = lo
    · have : hi = rank bmp c := by omega
      rw [if_pos (by omega), this]
    rw [if_neg (by omega)]
    have hget : bmp[(lo + hi) / 2]? = some bmp[(lo + hi) / 2] :=
      List.getElem?_eq_getElem (by omega)
    have hb := h.bmp_bounds _ (List.mem_of_getElem? hget)
    have hrank := le_iff_lt_rank h.bmp_increasing (c := (c : Int)) hget
    rw [read_bmp hget hb]
    simp only
    by_cases hc : c < bmp[(lo + hi) / 2].toNat
    · rw [if_pos hc]
      exact ih lo _ hlo (by omega) (by omega) (by omega)
    · rw [if_neg hc]
      exact ih _ hi (by omega) hhi hlen (by omega)

theorem searchSupplementary_eq : ∀ (fuel lo hi : Nat),
    lo < rank supp c → rank supp c ≤ hi → hi < supp.length → hi - lo < fuel →
      (serializedParts bmp supp).searchSupplementary (c / 0x10000) (c % 0x10000) bmp.length fuel
        (2 * lo : Nat) (2 * hi : Nat) = some ((2 * rank supp c : Nat) : Int) := by
  intro fuel
  induction fuel with
  | zero => omega
  | succ fuel ih =>
    intro lo hi hlo hhi hlen hf
    have hmid : (((2 * lo : Nat) : Int) + (2 * hi : Nat)) / 2 / 2 * 2 =
        (2 * ((lo + hi) / 2) : Nat) := by omega
    simp only [USerializedSet.searchSupplementary, hmid]
    by_cases hdone : (lo + hi) / 2 = lo
    · have : hi = rank supp c := by omega
      rw [if_pos (by omega), this]
    rw [if_neg (by omega)]
    have hget : supp[(lo + hi) / 2]? = some supp[(lo + hi) / 2] :=
      List.getElem?_eq_getElem (by omega)
    have hb := h.supp_bounds _ (List.mem_of_getElem? hget)
    have hrank := le_iff_lt_rank h.supp_increasing (c := (c : Int)) hget
    have hidx : ((2 * ((lo + hi) / 2) : Nat) : Int) + bmp.length =
        (bmp.length + 2 * ((lo + hi) / 2) : Nat) := by omega
    rw [hidx, belowPair_supp hget hb]
    by_cases hc : (c : Int) < supp[(lo + hi) / 2]
    · rw [decide_eq_true hc]
      exact ih lo _ hlo (by omega) (by omega) (by omega)
    · rw [decide_eq_false hc]
      exact ih _ hi (by omega) hhi hlen (by omega)

theorem serializedContains_bmp (hne : 0 < bmp.length) (hc : c ≤ 0xffff) :
    usetSerializedContains (serializedParts bmp supp) c = some (covers list c) := by
  have hfirst : bmp[0]? = some bmp[0] := List.getElem?_eq_getElem hne
  have hlast : bmp[bmp.length - 1]? = some bmp[bmp.length - 1] :=
    List.getElem?_eq_getElem (by omega)
  have hbf := h.bmp_bounds _ (List.mem_of_getElem? hfirst)
  have hbl := h.bmp_bounds _ (List.mem_of_getElem? hlast)
  have hrf := le_iff_lt_rank h.bmp_increasing (c := (c : Int)) hfirst
  have hrl := le_iff_lt_rank h.bmp_increasing (c := (c : Int)) hlast
  have hle := rank_le_length bmp (c : Int)
  have hread0 := @read_bmp bmp supp _ 0 hfirst hbf
  have hreadl := @read_bmp bmp supp _ _ hlast hbl
  rw [show ((bmp.length - 1 : Nat) : Int) = (bmp.length : Int) - 1 by omega] at hreadl
  rw [Nat.cast_zero] at hread0
  rw [covers_eq_rank, h.rank_bmp hc]
  simp only [usetSerializedContains, if_neg (show ¬ c > 0x10ffff by omega), if_pos hc]
  rw [show (serializedParts bmp supp).bmpLength = bmp.length from rfl]
  simp only [hread0, hreadl, Option.bind_eq_bind, Option.bind_some]
  by_cases hlt : c < bmp[0].toNat
  · have hz : rank bmp (c : Int) = 0 := by omega
    rw [if_pos hlt, hz]
    rfl
  rw [if_neg hlt]
  by_cases hlt' : c < bmp[bmp.length - 1].toNat
  · have hsearch := searchBmp_eq (c := c) h ((serializedParts bmp supp).length + 1) 0
      (bmp.length - 1) (by omega) (by omega) (by omega) (by simp only [serializedParts]; omega)
    rw [show ((bmp.length - 1 : Nat) : Int) = (bmp.length : Int) - 1 by omega,
      Nat.cast_zero] at hsearch
    rw [if_pos hlt', hsearch]
    simp only [Option.bind_some]
    congr 1
    rw [decide_eq_decide]
    omega
  · have hr : rank bmp (c : Int) = bmp.length := by omega
    rw [if_neg hlt', hr]
    simp only [Option.pure_def, Option.bind_some]
    congr 1
    rw [decide_eq_decide]
    omega

theorem serializedContains_supp (hne : 0 < supp.length) (h0 : 0x10000 ≤ c) (h1 : c ≤ 0x10ffff) :
    usetSerializedContains (serializedParts bmp supp) c = some (covers list c) := by
  have hfirst : supp[0]? = some supp[0] := List.getElem?_eq_getElem hne
  have hlast : supp[supp.length - 1]? = some supp[supp.length - 1] :=
    List.getElem?_eq_getElem (by omega)
  have hbf := h.supp_bounds _ (List.mem_of_getElem? hfirst)
  have hbl := h.supp_bounds _ (List.mem_of_getElem? hlast)
  have hrf := le_iff_lt_rank h.supp_increasing (c := (c : Int)) hfirst
  have hrl := le_iff_lt_rank h.supp_increasing (c := (c : Int)) hlast
  have hle := rank_le_length supp (c : Int)
  have hread0 := @belowPair_supp bmp supp _ 0 hfirst hbf c
  have hreadl := @belowPair_supp bmp supp _ _ hlast hbl c
  have hshift : c >>> 16 = c / 0x10000 := Nat.shiftRight_eq_div_pow c 16
  have hbase : (serializedParts bmp supp).bmpLength = bmp.length := rfl
  have hlen : (serializedParts bmp supp).length = bmp.length + 2 * supp.length := rfl
  have hhi : ((bmp.length + 2 * supp.length : Nat) : Int) - 2 - bmp.length =
      (2 * (supp.length - 1) : Nat) := by omega
  rw [show ((bmp.length + 2 * (supp.length - 1) : Nat) : Int) =
    (bmp.length : Int) + (2 * (supp.length - 1) : Nat) by omega] at hreadl
  rw [Nat.mul_zero, Nat.add_zero] at hread0
  rw [covers_eq_rank, h.rank_supp h0 h1]
  simp only [usetSerializedContains, if_neg (show ¬ c > 0x10ffff by omega),
    if_neg (show ¬ c ≤ 0xffff by omega), hshift, hbase, hlen, hhi]
  simp only [hread0, hreadl, Option.bind_eq_bind, Option.bind_some, decide_eq_true_eq]
  by_cases hlt : (c : Int) < supp[0]
  · have hz : rank supp (c : Int) = 0 := by omega
    rw [if_pos hlt, hz]
    simp only [Option.pure_def, Option.bind_some]
    congr 1
    rw [decide_eq_decide]
    omega
  rw [if_neg hlt]
  by_cases hlt' : (c : Int) < supp[supp.length - 1]
  · have hsearch := searchSupplementary_eq (c := c) h (bmp.length + 2 * supp.length + 1) 0
      (supp.length - 1) (by omega) (by omega) (by omega) (by omega)
    rw [Nat.mul_zero, Nat.cast_zero] at hsearch
    rw [if_pos hlt', hsearch]
    simp only [Option.bind_some]
    congr 1
    rw [decide_eq_decide]
    omega
  · have hr : rank supp (c : Int) = supp.length := by omega
    rw [if_neg hlt', hr]
    simp only [Option.pure_def, Option.bind_some]
    congr 1
    rw [decide_eq_decide]
    omega

end

theorem serializedContains_no_bmp (h : Parts list [] supp) :
    usetSerializedContains (serializedParts [] supp) 0xffff = none := by
  have hneg : (serializedParts [] supp).read (-1) = none := rfl
  simp only [usetSerializedContains, if_neg (show ¬ 0xffff > 0x10ffff by omega), Nat.le_refl,
    if_true, Option.bind_eq_bind]
  rw [show (((serializedParts [] supp).bmpLength : Int) - 1) = -1 from rfl, hneg]
  cases hs : supp with
  | nil => rfl
  | cons x xs =>
    have hx : supp[0]? = some x := by rw [hs]; rfl
    have hb := h.supp_bounds x (by simp [hs])
    have hread := (@read_supp [] supp x 0 hx hb).1
    rw [hs] at hread
    rw [show ((([] : List Int).length + 2 * 0 : Nat) : Int) = 0 from rfl] at hread
    rw [hread, Option.bind_some, if_neg (by omega)]
    rfl

theorem serializedContains_no_supp (bmp : List Int) :
    usetSerializedContains (serializedParts bmp []) 0x10000 = none := by
  have hread : (serializedParts bmp []).read bmp.length = none := by
    rw [USerializedSet.read, if_neg]
    simp [serializedParts]
  have hbase : ((serializedParts bmp []).bmpLength : Int) = bmp.length := rfl
  simp only [usetSerializedContains, if_neg (show ¬ 0x10000 > 0x10ffff by omega),
    if_neg (show ¬ 0x10000 ≤ 0xffff by omega), USerializedSet.belowPair, hbase, hread,
    Option.bind_eq_bind, Option.bind_none]

end Search

section Ranges

variable {list bmp supp : List Int} {k : Nat}

theorem Parts.getElem?_bmp (h : Parts list bmp supp) (hk : k < bmp.length) :
    ∃ x, list[k]? = some x ∧ bmp[k]? = some x ∧ 0 ≤ x ∧ x ≤ 0xffff := by
  have hget : bmp[k]? = some bmp[k] := List.getElem?_eq_getElem hk
  refine ⟨bmp[k], ?_, hget, h.bmp_bounds _ (List.mem_of_getElem? hget)⟩
  rw [h.eq, List.append_assoc, List.getElem?_append_left hk, hget]

theorem Parts.getElem?_supp (h : Parts list bmp supp) (hk : k < supp.length) :
    ∃ x, list[bmp.length + k]? = some x ∧ supp[k]? = some x ∧ 0x10000 ≤ x ∧ x ≤ 0x10ffff := by
  have hget : supp[k]? = some supp[k] := List.getElem?_eq_getElem hk
  refine ⟨supp[k], ?_, hget, h.supp_bounds _ (List.mem_of_getElem? hget)⟩
  rw [h.eq, List.append_assoc, List.getElem?_append_right (by omega), Nat.add_sub_cancel_left,
    List.getElem?_append_left hk, hget]

theorem Parts.getElem?_high (h : Parts list bmp supp) :
    list[bmp.length + supp.length]? = some unicodesetHigh := by
  rw [h.eq, List.getElem?_append_right (by simp)]
  simp

theorem getSerializedRange_eq {set : UnicodeSet} (h : Parts set.list bmp supp) :
    usetGetSerializedRangeCount (serializedParts bmp supp) = set.getRangeCount ∧
      ∀ i < usetGetSerializedRangeCount (serializedParts bmp supp), ∃ start stop,
        set.getRangeStart i = some start ∧ set.getRangeEnd i = some stop ∧
        usetGetSerializedRange (serializedParts bmp supp) i = some (some (start, stop)) := by
  have hbl : (serializedParts bmp supp).bmpLength = bmp.length := rfl
  have hln : (serializedParts bmp supp).length = bmp.length + 2 * supp.length := rfl
  have hcount : usetGetSerializedRangeCount (serializedParts bmp supp) =
      (bmp.length + supp.length + 1) / 2 := by
    rw [usetGetSerializedRangeCount, hbl, hln]
    omega
  have hlen := h.length_eq
  have hpos : 0 < set.list.length := by
    rw [h.eq, List.length_append, List.length_singleton]
    omega
  refine ⟨by rw [hcount, getRangeCount]; omega, fun i hi => ?_⟩
  rw [hcount] at hi
  simp only [usetGetSerializedRange, hbl, hln, getRangeStart, getRangeEnd, Option.bind_eq_bind]
  by_cases hstart : i * 2 < bmp.length
  · obtain ⟨x, hx, hxb, hb⟩ := h.getElem?_bmp hstart
    have hxread := @read_bmp bmp supp x (i * 2) hxb hb
    have hxcast : ((x.toNat : Nat) : Int) = x := Int.toNat_of_nonneg hb.1
    rw [if_pos hstart, hxread, Option.bind_some, hxcast]
    by_cases hstop : i * 2 + 1 < bmp.length
    · obtain ⟨y, hy, hyb, hb'⟩ := h.getElem?_bmp hstop
      have hyread := @read_bmp bmp supp y (i * 2 + 1) hyb hb'
      refine ⟨x, y - 1, hx, by rw [hy]; rfl, ?_⟩
      rw [if_pos hstop, hyread, Option.bind_some, Int.toNat_of_nonneg hb'.1]
      rfl
    rw [if_neg hstop]
    by_cases hsupp : i * 2 + 1 < bmp.length + 2 * supp.length
    · obtain ⟨y, hy, hys, hb'⟩ := h.getElem?_supp (show 0 < supp.length by omega)
      have hyread := @readPair_supp bmp supp y 0 hys hb'
      rw [show bmp.length + 2 * 0 = i * 2 + 1 by omega] at hyread
      rw [show bmp.length + 0 = i * 2 + 1 by omega] at hy
      refine ⟨x, y - 1, hx, by rw [hy]; rfl, ?_⟩
      rw [if_pos hsupp, hyread]
      rfl
    · have hend := h.getElem?_high
      rw [show bmp.length + supp.length = i * 2 + 1 by omega] at hend
      refine ⟨x, 0x10ffff, hx, by rw [hend]; rfl, ?_⟩
      rw [if_neg hsupp]
      rfl
  · rw [if_neg hstart]
    have hk : i * 2 - bmp.length < supp.length := by omega
    obtain ⟨x, hx, hxs, hb⟩ := h.getElem?_supp hk
    have hxread := @readPair_supp bmp supp x _ hxs hb
    rw [show bmp.length + 2 * (i * 2 - bmp.length) = bmp.length + (i * 2 - bmp.length) * 2 by omega]
      at hxread
    rw [show bmp.length + (i * 2 - bmp.length) = i * 2 by omega] at hx
    rw [if_pos (by omega), hxread, Option.bind_some]
    by_cases hstop : i * 2 - bmp.length + 1 < supp.length
    · obtain ⟨y, hy, hys, hb'⟩ := h.getElem?_supp hstop
      have hyread := @readPair_supp bmp supp y _ hys hb'
      rw [show bmp.length + 2 * (i * 2 - bmp.length + 1) =
        bmp.length + ((i * 2 - bmp.length) * 2 + 2) by omega] at hyread
      rw [show bmp.length + (i * 2 - bmp.length + 1) = i * 2 + 1 by omega] at hy
      refine ⟨x, y - 1, hx, by rw [hy]; rfl, ?_⟩
      rw [if_pos (by omega), hyread]
      rfl
    · have hend := h.getElem?_high
      rw [show bmp.length + supp.length = i * 2 + 1 by omega] at hend
      refine ⟨x, 0x10ffff, hx, by rw [hend]; rfl, ?_⟩
      rw [if_neg (by omega)]
      rfl

end Ranges

section Write

variable {set : UnicodeSet} {bmp supp : List Int}

theorem countBmp_eq (h : Parts set.list bmp supp) :
    countBmp set.list (bmp.length + supp.length) = bmp.length := by
  have key : ∀ l : List Int, (∀ x ∈ l, x ≤ 0xffff) →
      countBmp (l ++ (supp ++ [unicodesetHigh])) (l.length + supp.length) = l.length := by
    intro l
    induction l with
    | nil =>
      intro _
      cases hs : supp with
      | nil => rfl
      | cons y ys =>
        have hy := h.supp_bounds y (by simp [hs])
        simp [countBmp, show ¬ y ≤ 0xffff by omega]
    | cons x xs ih =>
      intro hx
      have hx0 := hx x List.mem_cons_self
      have := ih fun y hy => hx y (List.mem_cons_of_mem x hy)
      rw [List.cons_append, List.length_cons, Nat.add_right_comm, countBmp, if_pos hx0, this]
  rw [h.eq, List.append_assoc]
  exact key bmp fun x hx => (h.bmp_bounds x hx).2

theorem partLengths (h : Parts set.list bmp supp) {last first : Int}
    (hlast : set.list[bmp.length + supp.length - 1]? = some last)
    (hfirst : set.list[0]? = some first) (hne : bmp.length + supp.length ≠ 0) :
    (if last ≤ 0xffff then (bmp.length + supp.length, bmp.length + supp.length)
      else if first ≥ 0x10000 then (0, (bmp.length + supp.length) * 2)
      else (countBmp set.list (bmp.length + supp.length),
        countBmp set.list (bmp.length + supp.length) +
          2 * (bmp.length + supp.length - countBmp set.list (bmp.length + supp.length)))) =
      (bmp.length, bmp.length + 2 * supp.length) := by
  rw [countBmp_eq h]
  by_cases hs : supp.length = 0
  · obtain ⟨x, hx, -, hb⟩ :=
      h.getElem?_bmp (show bmp.length + supp.length - 1 < bmp.length by omega)
    rw [hlast, Option.some.injEq] at hx
    rw [if_pos (by omega), hs]
    rfl
  obtain ⟨x, hx, -, hb⟩ := h.getElem?_supp (show supp.length - 1 < supp.length by omega)
  rw [show bmp.length + (supp.length - 1) = bmp.length + supp.length - 1 by omega, hlast,
    Option.some.injEq] at hx
  rw [if_neg (by omega)]
  by_cases hb0 : bmp.length = 0
  · obtain ⟨y, hy, -, hb'⟩ := h.getElem?_supp (show 0 < supp.length by omega)
    rw [show bmp.length + 0 = 0 by omega, hfirst, Option.some.injEq] at hy
    rw [if_pos (by omega), hb0, Prod.mk.injEq]
    omega
  · obtain ⟨y, hy, -, hb'⟩ := h.getElem?_bmp (show 0 < bmp.length by omega)
    rw [hfirst, Option.some.injEq] at hy
    rw [if_neg (by omega), Prod.mk.injEq]
    omega

theorem arrayUnits_length (bmp supp : List Int) :
    (arrayUnits bmp supp).length = bmp.length + 2 * supp.length := by
  simp [arrayUnits, List.length_flatMap, Nat.mul_comm]

theorem getSerializedSet_parts (hlen : bmp.length + 2 * supp.length ≤ 0x7fff) : usetGetSerializedSet
      ((if bmp.length + 2 * supp.length > bmp.length then
        [UInt16.ofNat ((bmp.length + 2 * supp.length) ||| 0x8000), UInt16.ofNat bmp.length]
        else [UInt16.ofNat (bmp.length + 2 * supp.length)]) ++ arrayUnits bmp supp) =
      some (serializedParts bmp supp) := by
  have hau := arrayUnits_length bmp supp
  generalize hL : bmp.length + 2 * supp.length = length at *
  by_cases hs : length > bmp.length
  · have hor : length ||| 0x8000 = 0x8000 + length := by
      rw [Nat.or_comm]
      exact @Bits.or_mul 1 length 15 (by omega)
    have hval : (UInt16.ofNat (length ||| 0x8000)).toNat = 0x8000 + length := by
      rw [UInt16.toNat_ofNat', hor]
      omega
    have hflag : (0x8000 + length) &&& 0x8000 ≠ 0 := by
      have hbit : (0x8000 + length) &&& 0x8000 = ((0x8000 + length).testBit 15).toNat * 2 ^ 15 :=
        Nat.and_two_pow _ 15
      have hdiv : (0x8000 + length) / 2 ^ 15 % 2 = 1 := by omega
      rw [hbit, Nat.testBit_eq_decide_div_mod_eq, decide_eq_true hdiv]
      decide
    have hmask : (0x8000 + length) &&& 0x7fff = length := by
      rw [Bits.and_low _ 15 0x7fff (by decide)]
      omega
    have hbmp : (UInt16.ofNat bmp.length).toNat = bmp.length := by
      rw [UInt16.toNat_ofNat']
      omega
    rw [if_pos hs]
    simp only [usetGetSerializedSet, List.cons_append, List.nil_append, hval, if_pos hflag, hmask,
      List.length_cons, hau, hbmp]
    rw [if_neg (by omega), serializedParts, hL]
  · have hval : (UInt16.ofNat length).toNat = length := by
      rw [UInt16.toNat_ofNat']
      omega
    have hflag : ¬ (length &&& 0x8000 ≠ 0) := by
      have hbit : length &&& 0x8000 = (length.testBit 15).toNat * 2 ^ 15 := Nat.and_two_pow _ 15
      have hdiv : ¬ length / 2 ^ 15 % 2 = 1 := by omega
      rw [hbit, Nat.testBit_eq_decide_div_mod_eq, decide_eq_false hdiv]
      decide
    have hbmp : length = bmp.length := by omega
    rw [if_neg hs]
    simp only [usetGetSerializedSet, List.cons_append, List.nil_append, hval, if_neg hflag,
      List.length_cons, hau]
    rw [if_neg (by omega), serializedParts, hL, ← hbmp]

theorem getSerializedSet_serialize (h : Parts set.list bmp supp) {destCapacity : Nat}
    {r : SerializeResult} (hr : set.serialize destCapacity = some r) (hec : r.ec = .zeroError) :
    usetGetSerializedSet r.dest = some (serializedParts bmp supp) := by
  have hlen := h.length_eq
  by_cases hne : bmp.length + supp.length = 0
  · have hb : bmp = [] := List.eq_nil_of_length_eq_zero (by omega)
    have hs : supp = [] := List.eq_nil_of_length_eq_zero (by omega)
    simp only [UnicodeSet.serialize, hlen, if_pos hne] at hr
    subst hb hs
    split at hr
    · cases hr
      rfl
    · cases hr
      cases hec
  have hget : ∀ k, k < bmp.length + supp.length → ∃ x, set.list[k]? = some x := by
    intro k hk
    exact ⟨_, List.getElem?_eq_getElem (by omega)⟩
  obtain ⟨last, hlast⟩ := hget (bmp.length + supp.length - 1) (by omega)
  obtain ⟨first, hfirst⟩ := hget 0 (by omega)
  simp only [UnicodeSet.serialize, hlen, if_neg hne, hlast, hfirst, Option.bind_eq_bind,
    Option.bind_some, partLengths h hlast hfirst hne] at hr
  by_cases hbig : bmp.length + 2 * supp.length > 0x7fff
  · rw [if_pos hbig] at hr
    cases hr
    cases hec
  rw [if_neg hbig] at hr
  by_cases hcap : bmp.length + 2 * supp.length +
      (if bmp.length + 2 * supp.length > bmp.length then 2 else 1) ≤ destCapacity
  · have htake : set.list.take bmp.length = bmp := by
      rw [h.eq, List.append_assoc, List.take_left]
    have hdrop : (set.list.drop bmp.length).take
        ((bmp.length + 2 * supp.length - bmp.length) / 2) = supp := by
      rw [h.eq, List.append_assoc, List.drop_left,
        show (bmp.length + 2 * supp.length - bmp.length) / 2 = supp.length by omega,
        List.take_left]
    rw [if_pos hcap, htake, hdrop] at hr
    cases hr
    rw [List.append_assoc]
    exact getSerializedSet_parts (by omega)
  · rw [if_neg hcap] at hr
    cases hr
    cases hec

end Write

structure SerializableSet (set : UnicodeSet) : Prop where
  list : IsInversionList set.list
  strings : set.strings = []
  frozen : ∀ bmpSet, set.bmpSet = some bmpSet → BMPSet.new set.list = some bmpSet

theorem SerializableSet.contains_eq {set : UnicodeSet} (h : SerializableSet set) (c : Int) :
    set.contains c = some (decide (c < unicodesetHigh) && covers set.list c) := by
  cases hf : set.bmpSet with
  | none => exact UnicodeSet.contains_eq h.list hf c
  | some bmpSet =>
    obtain ⟨represented, hnew, hr⟩ := BMPSet.new_represents h.list
    rw [h.frozen bmpSet hf, Option.some.injEq] at hnew
    rw [UnicodeSet.contains, hf, hnew]
    exact hr.contains_eq c

/-- The units can be read, with the ranges and the code points of the set, and all reads
are inside of the array. -/
def RoundTrips (set : UnicodeSet) (units : List UInt16) : Prop :=
  ∃ serialized, usetGetSerializedSet units = some serialized ∧
    usetGetSerializedRangeCount serialized = set.getRangeCount ∧
    (∀ i < usetGetSerializedRangeCount serialized, ∃ start stop,
      set.getRangeStart i = some start ∧ set.getRangeEnd i = some stop ∧
      usetGetSerializedRange serialized i = some (some (start, stop))) ∧
    ∀ c : Nat, c ≤ 0x10ffff → ∃ has,
      usetSerializedContains serialized c = some has ∧ set.contains c = some has

def BothParts (list : List Int) : Prop :=
  (∃ x ∈ list, x ≤ 0xffff) ∧ ∃ x ∈ list, 0xffff < x ∧ x < unicodesetHigh

theorem Parts.bothParts_iff {list bmp supp : List Int} (h : Parts list bmp supp) :
    BothParts list ↔ bmp ≠ [] ∧ supp ≠ [] := by
  have hhigh : unicodesetHigh = 0x110000 := rfl
  constructor
  · rintro ⟨⟨x, hx, hxb⟩, y, hy, hyb⟩
    rw [h.eq, List.mem_append, List.mem_append, List.mem_singleton] at hx hy
    constructor
    · rintro rfl
      rcases hx with (hx | hx) | hx
      · cases hx
      · have := h.supp_bounds x hx
        omega
      · omega
    · rintro rfl
      rcases hy with (hy | hy) | hy
      · have := h.bmp_bounds y hy
        omega
      · cases hy
      · omega
  · rintro ⟨hb, hs⟩
    obtain ⟨x, hx⟩ := List.exists_mem_of_ne_nil bmp hb
    obtain ⟨y, hy⟩ := List.exists_mem_of_ne_nil supp hs
    have hxb := h.bmp_bounds x hx
    have hyb := h.supp_bounds y hy
    exact ⟨⟨x, by rw [h.eq]; simp [hx], hxb.2⟩, y, by rw [h.eq]; simp [hy], by omega, by omega⟩

/-- A serialized set can be read back exactly when its list has values in the BMP and
supplementary values: the look-up of a code point reads both ends of the part for its
plane, whether or not there are any. -/
theorem roundTrips_iff_bothParts {set : UnicodeSet} (h : SerializableSet set)
    {destCapacity : Nat} {r : SerializeResult} (hr : set.serialize destCapacity = some r)
    (hec : r.ec = .zeroError) : RoundTrips set r.dest ↔ BothParts set.list := by
  have hhigh : unicodesetHigh = 0x110000 := rfl
  obtain ⟨bmp, supp, hp⟩ := exists_parts h.list
  have hget := getSerializedSet_serialize hp hr hec
  obtain ⟨hcount, hranges⟩ := getSerializedRange_eq hp
  rw [hp.bothParts_iff]
  constructor
  · rintro ⟨serialized, hser, -, -, hcontains⟩
    rw [hget, Option.some.injEq] at hser
    subst hser
    constructor
    · rintro rfl
      obtain ⟨has, hc, -⟩ := hcontains 0xffff (by omega)
      rw [serializedContains_no_bmp hp] at hc
      cases hc
    · rintro rfl
      obtain ⟨has, hc, -⟩ := hcontains 0x10000 (by omega)
      rw [serializedContains_no_supp bmp] at hc
      cases hc
  · rintro ⟨hb, hs⟩
    refine ⟨_, hget, hcount, hranges, fun c hc => ⟨covers set.list c, ?_, ?_⟩⟩
    · by_cases hbmp : c ≤ 0xffff
      · exact serializedContains_bmp hp (List.length_pos_of_ne_nil hb) hbmp
      · exact serializedContains_supp hp (List.length_pos_of_ne_nil hs) (by omega) hc
    · rw [h.contains_eq, decide_eq_true (by omega), Bool.true_and]

theorem roundTrips_letters_and_linearB : BothParts [0x61, 0x7b, 0x10000, 0x10010, 0x110000] ∧
      RoundTrips ⟨[0x61, 0x7b, 0x10000, 0x10010, 0x110000], [], none, false⟩
        [0x8006, 2, 0x61, 0x7b, 1, 0, 1, 0x10] := by
  have hboth : BothParts [0x61, 0x7b, 0x10000, 0x10010, 0x110000] :=
    ⟨⟨0x61, by decide⟩, 0x10000, by decide⟩
  have hset : SerializableSet ⟨[0x61, 0x7b, 0x10000, 0x10010, 0x110000], [], none, false⟩ :=
    ⟨⟨by decide, by decide, by decide⟩, rfl, fun _ h => by cases h⟩
  have hr : UnicodeSet.serialize ⟨[0x61, 0x7b, 0x10000, 0x10010, 0x110000], [], none, false⟩ 8 =
      some ⟨8, [0x8006, 2, 0x61, 0x7b, 1, 0, 1, 0x10], .zeroError⟩ := by decide
  exact ⟨hboth, (roundTrips_iff_bothParts hset hr rfl).mpr hboth⟩

/-- The set of the lowercase letters is serialized, but U+10000 cannot be looked up: the
first supplementary value would stand right behind the array. -/
theorem not_roundTrips_lowercase : SerializableSet ⟨[0x61, 0x7b, 0x110000], [], none, false⟩ ∧
      UnicodeSet.serialize ⟨[0x61, 0x7b, 0x110000], [], none, false⟩ 16 =
        some ⟨3, [2, 0x61, 0x7b], .zeroError⟩ ∧
      ¬ RoundTrips ⟨[0x61, 0x7b, 0x110000], [], none, false⟩ [2, 0x61, 0x7b] := by
  refine ⟨⟨⟨by decide, by decide, by decide⟩, rfl, fun _ h => by cases h⟩, by decide, ?_⟩
  rintro ⟨serialized, hser, -, -, hcontains⟩
  have hread : usetGetSerializedSet [2, 0x61, 0x7b] = some ⟨[0x61, 0x7b], 2, 2⟩ := by decide
  rw [hread, Option.some.injEq] at hser
  subst hser
  obtain ⟨has, hc, -⟩ := hcontains 0x10000 (by omega)
  have hnone : usetSerializedContains ⟨[0x61, 0x7b], 2, 2⟩ 0x10000 = none := by decide
  rw [hnone] at hc
  cases hc

end Icu
