import Icu.Bocsu.Order

/-! # Runs of the identical level

The buffers of the sink are filled one after the other, with at least one code point each, so that
together they hold the bytes of the code points.
-/

namespace Icu.Bocsu

open Utf16 Lib.OrderedCode

/-- The last `prev` and the bytes of a sequence of code points. -/
def writeCodePoints (prev : Int) : List Nat → Int × List UInt8
  | [] => (prev, [])
  | c :: cps =>
    let (prev, bytes) := writeCodePoint prev c
    let (prev, rest) := writeCodePoints prev cps
    (prev, bytes ++ rest)

theorem writeCodePoint_length (prev : Int) (c : Nat) :
    (writeCodePoint prev c).2.length ≤ slopeMaxBytes := by
  unfold writeCodePoint
  split
  · decide
  · exact (uWriteDiff_length _).2

variable {s : List UInt16} {capacity prev : Int} {i : Nat} {buffer : List UInt8}

/-- What the inner loop leaves: the bytes of the code points that it went over, inside the
buffer. -/
structure Filled (s : List UInt16) (capacity prev : Int) (i : Nat) (buffer : List UInt8)
    (prev' : Int) (i' : Nat) (buffer' : List UInt8) : Prop where
  le : i ≤ i'
  le_length : i' ≤ s.length
  bytes : buffer ++ (writeCodePoints prev (codePoints (s.drop i))).2 =
    buffer' ++ (writeCodePoints prev' (codePoints (s.drop i'))).2
  last : (writeCodePoints prev (codePoints (s.drop i))).1 =
    (writeCodePoints prev' (codePoints (s.drop i'))).1
  inside : buffer.length ≤ capacity → buffer'.length ≤ capacity

theorem filled_step (prev : Int) (hi : i < s.length)
    (hroom : (buffer.length : Int) ≤ capacity - slopeMaxBytes) :
    ∃ c j, u16Next s i s.length = some (c, j) ∧ i < j ∧
      Filled s capacity prev i buffer (writeCodePoint prev c).1 j
        (buffer ++ (writeCodePoint prev c).2) := by
  obtain ⟨c, j, hnext, hlt, hle, hcps⟩ := u16Next_codePoints hi
  have hlength := writeCodePoint_length prev c
  refine ⟨c, j, hnext, hlt, ⟨by omega, hle, ?_, ?_, ?_⟩⟩
  · rw [hcps, List.append_assoc]
    rfl
  · rw [hcps]
    rfl
  · intro _
    rw [List.length_append]
    push_cast
    omega

theorem Filled.trans {prev' prev'' : Int} {i' i'' : Nat} {buffer' buffer'' : List UInt8}
    (h : Filled s capacity prev i buffer prev' i' buffer')
    (h' : Filled s capacity prev' i' buffer' prev'' i'' buffer'') :
    Filled s capacity prev i buffer prev'' i'' buffer'' where
  le := Nat.le_trans h.le h'.le
  le_length := h'.le_length
  bytes := h.bytes.trans h'.bytes
  last := h.last.trans h'.last
  inside := fun hin => h'.inside (h.inside hin)

theorem fillBuffer_spec (capacity prev : Int) (buffer : List UInt8) (fuel : Nat) (hi : i ≤ s.length)
    (hfuel : s.length - i < fuel) :
    ∃ prev' i' buffer', fillBuffer s capacity fuel prev i buffer = some (prev', i', buffer') ∧
      Filled s capacity prev i buffer prev' i' buffer' ∧
      (i < s.length → (buffer.length : Int) ≤ capacity - slopeMaxBytes → i < i') := by
  induction fuel generalizing prev i buffer with
  | zero =>
    omega
  | succ fuel ih =>
    unfold fillBuffer
    by_cases hround : i < s.length ∧ (buffer.length : Int) ≤ capacity - slopeMaxBytes
    · obtain ⟨c, j, hnext, hlt, hstep⟩ := filled_step prev hround.1 hround.2
      obtain ⟨prev', i', buffer', hrest, hfilled, -⟩ := ih (writeCodePoint prev c).1
        (buffer ++ (writeCodePoint prev c).2) hstep.le_length (by omega)
      have hle := hfilled.le
      refine ⟨prev', i', buffer', ?_, hstep.trans hfilled, fun _ _ => by omega⟩
      rw [if_pos hround, hnext]
      exact hrest
    · rw [if_neg hround]
      exact ⟨prev, i, buffer, rfl, ⟨Nat.le_refl i, hi, rfl, rfl, id⟩,
        fun h h' => absurd ⟨h, h'⟩ hround⟩

theorem fillBuffers_eq (capacities : Nat → Int) (fuel call : Nat) (sink : List UInt8)
    (hi : i ≤ s.length) (hfuel : s.length - i < fuel) :
    fillBuffers s capacities fuel call prev i sink =
      some ((writeCodePoints prev (codePoints (s.drop i))).1,
        sink ++ (writeCodePoints prev (codePoints (s.drop i))).2) := by
  induction fuel generalizing call prev i sink with
  | zero =>
    omega
  | succ fuel ih =>
    unfold fillBuffers
    by_cases hmore : i < s.length
    · have hcapacity : (16 : Int) ≤ if capacities call < 16 then 64 else capacities call := by
        split <;> omega
      obtain ⟨prev', i', buffer', hbuffer, hfilled, hprogress⟩ := fillBuffer_spec
        (if capacities call < 16 then 64 else capacities call) prev [] (s.length + 1) hi (by omega)
      have hlt : i < i' := hprogress hmore (by unfold slopeMaxBytes; simp; omega)
      have hbytes := hfilled.bytes
      rw [List.nil_append] at hbytes
      rw [if_pos hmore]
      simp only [hbuffer, Option.bind_eq_bind, Option.bind_some]
      rw [ih (call + 1) (sink ++ buffer') hfilled.le_length (by omega), hfilled.last, hbytes,
        List.append_assoc]
    · have hend : i = s.length := by omega
      rw [if_neg hmore, hend, List.drop_length]
      simp [codePoints, writeCodePoints]

theorem uWriteIdenticalLevelRun_eq (capacities : Nat → Int) (prev : Int) (s : List UInt16) :
    uWriteIdenticalLevelRun capacities prev s = some (writeCodePoints prev (codePoints s)) := by
  unfold uWriteIdenticalLevelRun
  rw [fillBuffers_eq capacities _ 0 [] (Nat.zero_le _) (by omega), List.nil_append, List.drop_zero]

theorem writeCodePoints_encode (prev : Int) (cps : List Nat) :
    (writeCodePoints prev cps).2 = encode writeKey prev (cps.map mergeKey) := by
  induction cps generalizing prev with
  | nil =>
    rfl
  | cons c cps ih =>
    rw [List.map_cons, encode, writeKey, ofMergeKey_mergeKey, ← ih]
    rfl

theorem writeCodePoints_cons (prev : Int) (c : Nat) (cps : List Nat) :
    (writeCodePoints prev (c :: cps)).2 =
      (writeCodePoint prev c).2 ++ (writeCodePoints (writeCodePoint prev c).1 cps).2 := rfl

theorem writeCodePoints_ge (prev : Int) (cps : List Nat) :
    ∀ b ∈ (writeCodePoints prev cps).2, 2 ≤ b.toNat := by
  induction cps generalizing prev with
  | nil =>
    simp [writeCodePoints]
  | cons c cps ih =>
    intro b hb
    rw [writeCodePoints_cons, List.mem_append] at hb
    obtain hfirst | hrest := hb
    · unfold writeCodePoint at hfirst
      split at hfirst
      · rw [List.mem_singleton.mp hfirst]
        decide
      · have := uWriteDiff_ge _ b hfirst
        omega
    · exact ih _ b hrest

theorem count_writeCodePoints (prev : Int) (cps : List Nat) :
    (writeCodePoints prev cps).2.count 2 = cps.count 0xfffe := by
  induction cps generalizing prev with
  | nil =>
    rfl
  | cons c cps ih =>
    rw [writeCodePoints_cons, List.count_append, ih, List.count_cons, Nat.add_comm]
    congr 1
    unfold writeCodePoint
    by_cases hmerge : c = 0xfffe
    · simp [hmerge]
    rw [if_neg hmerge, if_neg (by simpa using hmerge), List.count_eq_zero]
    intro hmem
    exact absurd (uWriteDiff_ge _ 2 hmem) (by decide)

/-- The bytes do not depend on the buffers, and their order is that of the code points with U+FFFE
below the others. There is no byte 0 or 1, and a byte 2 for each U+FFFE. -/
theorem uWriteIdenticalLevelRun_order {prev : Int} (hprev : IsPrev prev) (s t : List UInt16) :
    ∃ x y : Int × List UInt8,
      (∀ capacities, uWriteIdenticalLevelRun capacities prev s = some x) ∧
      (∀ capacities, uWriteIdenticalLevelRun capacities prev t = some y) ∧
      ((codePoints s).map mergeKey < (codePoints t).map mergeKey ↔ x.2 < y.2) ∧
      (x.2 = y.2 → codePoints s = codePoints t) ∧
      (∀ b ∈ x.2, b ≠ 0 ∧ b ≠ 1) ∧ x.2.count 2 = (codePoints s).count 0xfffe := by
  have hasymm : Std.Asymm (fun x y : UInt8 => x < y) :=
    ⟨fun x y h h' => by rw [UInt8.lt_iff_toNat_lt] at *; omega⟩
  have hkeys (s : List UInt16) : ∀ k ∈ (codePoints s).map mergeKey, IsKey k := by
    intro k hk
    obtain ⟨c, hc, rfl⟩ := List.mem_map.mp hk
    exact isKey_mergeKey (codePoints_le s c hc)
  have horder (s t : List UInt16) : (codePoints s).map mergeKey < (codePoints t).map mergeKey ↔
      (writeCodePoints prev (codePoints s)).2 < (writeCodePoints prev (codePoints t)).2 := by
    rw [writeCodePoints_encode, writeCodePoints_encode]
    exact writeKey_ordered.encode_lt_iff hprev (hkeys s) (hkeys t)
  refine ⟨_, _, fun capacities => uWriteIdenticalLevelRun_eq capacities prev s,
    fun capacities => uWriteIdenticalLevelRun_eq capacities prev t, horder s t, ?_, ?_,
    count_writeCodePoints prev _⟩
  · intro heq
    have hinjective : Function.Injective mergeKey :=
      Function.LeftInverse.injective ofMergeKey_mergeKey
    apply hinjective.list_map
    obtain hlt | hsame | hgt := lt_trichotomy ((codePoints s).map mergeKey)
      ((codePoints t).map mergeKey)
    · exact absurd ((horder s t).mp hlt) (by rw [heq]; exact List.lt_irrefl _)
    · exact hsame
    · exact absurd ((horder t s).mp hgt) (by rw [heq]; exact List.lt_irrefl _)
  · intro b hb
    have hge := writeCodePoints_ge prev _ b hb
    constructor
    · rintro rfl
      exact absurd hge (by decide)
    · rintro rfl
      exact absurd hge (by decide)

theorem uWriteIdenticalLevelRun_order_merge : ∃ x y : Int × List UInt8,
    uWriteIdenticalLevelRun (fun _ => 16) 0 [0x61, 0xfffe] = some x ∧
      uWriteIdenticalLevelRun (fun _ => 1) 0 [0x61, 0x20] = some y ∧ x.2 < y.2 := by
  obtain ⟨x, y, hx, hy, horder, -⟩ :=
    @uWriteIdenticalLevelRun_order 0 ⟨by decide, by decide⟩ [0x61, 0xfffe] [0x61, 0x20]
  exact ⟨x, y, hx _, hy _, horder.mp (by decide)⟩

end Icu.Bocsu
