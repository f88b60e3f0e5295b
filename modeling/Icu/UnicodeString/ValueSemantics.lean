import Icu.UnicodeString.Replace

/-! # Value semantics of `doReplace`

Every call leaves a string of the right length, and the other strings alone. The new contents are
the old parts around the source range as it was before the call, unless the source is the string
itself and a part of it was written over before it is copied: the stack buffer by the fields of a
new array, or the units behind the hole by the tail that is moved inside of the array.
-/

namespace Icu.Memory

open Lib UnicodeString

variable {m : Machine} {mem : Memory} {i : Nat} {str : UnicodeString} {start : Int}
  {X : List UInt16} {length : Nat}
variable {A U : List UInt16} {srcStart srcLength : Nat} {srcChars : Pointer}

theorem needsClone_of_writable (hstr : mem.strings[i]? = some str) (hv : Valid m mem)
    (hwritable : mem.isBufferWritable str = some true) {newCapacity : Nat}
    (hle : newCapacity ≤ str.getCapacity m) : mem.needsClone m str newCapacity = some false := by
  rw [needsClone, refCount]
  rw [isBufferWritable] at hwritable
  cases hs : str.storage with
  | longString a c =>
    obtain ⟨units, hread, -⟩ := hv.arrays i str a c hstr hs
    rw [read, Option.map_eq_some_iff] at hread
    obtain ⟨r, hr, -⟩ := hread
    rw [hs] at hwritable
    dsimp only at hwritable ⊢
    rw [hr, Option.map_some, Option.some.injEq, Bool.and_eq_true, beq_iff_eq] at hwritable
    rw [hr]
    simp only [Option.map_some, isReadonly, hs, hwritable.2]
    simp [hle]
  | readonlyAlias t c =>
    rw [hs] at hwritable
    simp [isReadonly, hs] at hwritable
  | bogus => simp [isReadonly, hs, hle]
  | shortString => simp [isReadonly, hs, hle]

theorem appendInPlace_eq (hv : Valid m mem) (hstr : mem.strings[i]? = some str)
    (hb : str.storage ≠ .bogus) (hA : mem.read (str.getArrayStart i) = some A)
    (hneeds : mem.needsClone m str (str.length + srcLength) = some false)
    (hstart : start ≥ str.length) (hsource : IsSource mem srcChars srcStart srcLength U) :
    ∃ mem', mem.appendInPlace i str start srcChars srcStart srcLength = some mem' ∧
      Replaced m mem i (A.take str.length ++ (U.drop srcStart).take srcLength) mem' := by
  set newLength := str.length + srcLength with hnewLength
  obtain ⟨mem1, str1, del, needed, -, hneeds', hready, hclone⟩ :=
    @cloneArrayIfNeeded_eq m mem i str hv hstr hb newLength
      (newLength + newLength / 4 + kGrowSize) (by omega) (stackbufSize_lt m newLength)
  obtain rfl := Option.some.inj (hneeds.symm.trans hneeds')
  rw [if_neg Bool.false_ne_true] at hclone
  obtain ⟨rfl, rfl⟩ := hclone
  have hready : Ready m mem1 i newLength mem1 str1 none :=
    { hready with del := fun a h => by cases h }
  have hAle : newLength ≤ A.length := by
    obtain ⟨D, hD, hle⟩ := hready.exists_units
    obtain rfl := Option.some.inj (hA.symm.trans hD)
    exact hle
  have hX : ((U.drop srcStart).take srcLength).length = srcLength := by
    have := hsource.le
    rw [List.length_take, List.length_drop]
    omega
  have hfit : str1.length + ((U.drop srcStart).take srcLength).length ≤ A.length := by
    rw [hX]
    exact hAle
  rw [appendInPlace]
  by_cases hcopy : ¬ (srcChars = str1.getArrayStart i ∧ (srcStart : Int) = start) ∨
      start > str1.length
  · obtain ⟨mem2, hcopied, hread2, hframe⟩ :=
      @usArrayCopy_frame mem1 (str1.getArrayStart i) srcChars
      hready.owned U A srcStart str1.length srcLength (fun _ => ⟨hsource.read, hsource.le⟩) hA hAle
    obtain ⟨mem3, hsetLength, hreplaced⟩ := finish hv hready hframe hA hread2
      (length_overwrite hfit)
    refine ⟨mem3, ?_, ?_⟩
    · rw [if_pos hcopy, hcopied]
      exact hsetLength
    have htake := take_overwrite_end hfit
    rw [hX] at htake
    rw [htake] at hreplaced
    exact hreplaced
  -- the characters are there already
  obtain ⟨⟨hp, hsame⟩, hend⟩ := not_or.mp hcopy |>.imp_left not_not.mp
  obtain rfl : srcStart = str1.length := by omega
  obtain rfl : U = A := by
    have hU := hsource.read
    rw [hp, hA, Option.some.injEq] at hU
    exact hU.symm
  obtain ⟨mem3, hsetLength, hreplaced⟩ := finish hv hready (.refl _ mem1) hA hA rfl
  refine ⟨mem3, ?_, ?_⟩
  · rw [if_neg hcopy]
    exact hsetLength
  · rw [hnewLength, List.take_add] at hreplaced
    exact hreplaced

/-! ## The shortcuts for an alias -/

theorem replaced_alias (hv : Valid m mem) (hstr : mem.strings[i]? = some str)
    (hold : ∃ t c, str.storage = .readonlyAlias t c) {trimmed : UnicodeString} {t : List UInt16}
    {c : Nat} (hs : trimmed.storage = .readonlyAlias t c) (hbuffer : trimmed.fBuffer = str.fBuffer)
    (hlen : trimmed.length ≤ c) (hc : c ≤ t.length) :
    Replaced m mem i (t.take trimmed.length) (mem.setString i trimmed) := by
  have hlt := (List.getElem?_eq_some_iff.mp hstr).1
  have hi : (mem.setString i trimmed).strings[i]? = some trimmed := List.getElem?_set_self hlt
  have hk : ∀ k : Nat, k ≠ i → (mem.setString i trimmed).strings[k]? = mem.strings[k]? :=
    fun k hk => List.getElem?_set_ne (Ne.symm hk)
  have hread : ∀ q, (mem.setString i trimmed).read q = mem.read q := by
    intro q
    cases q with
    | stackBuffer k =>
      rw [read, read]
      by_cases hki : k = i
      · subst hki
        rw [hi, hstr, Option.map_some, Option.map_some, hbuffer]
      · rw [hk k hki]
    | null => rfl
    | text t => rfl
    | array a => rfl
  have hno : ∀ a, trimmed.refersTo a = false := by
    intro a
    rw [refersTo, hs]
  refine ⟨?_, ?_, ⟨?_, ?_, ?_, ?_, ?_⟩, trimmed, hi, ?_⟩
  · exact contents_eq hi (by rw [getArrayStart, hs]; rfl) (Nat.le_trans hlen hc)
  · intro k hki
    refine contents_congr (by rw [hk k hki]) fun str' _ => hread _
  · intro k units hunits
    exact hv.buffers k units (by rw [← hread, hunits])
  · intro k str' a c' hstr' hs'
    by_cases hki : k = i
    · subst hki
      obtain rfl := Option.some.inj (hi.symm.trans hstr')
      rw [hs] at hs'
      cases hs'
    · rw [hk k hki] at hstr'
      rw [hread]
      exact hv.arrays k str' a c' hstr' hs'
  · intro k str' t' c' hstr' hs'
    by_cases hki : k = i
    · subst hki
      obtain rfl := Option.some.inj (hi.symm.trans hstr')
      rw [hs] at hs'
      cases hs'
      exact hc
    · rw [hk k hki] at hstr'
      exact hv.aliases k str' t' c' hstr' hs'
  · intro k str' hstr'
    by_cases hki : k = i
    · subst hki
      obtain rfl := Option.some.inj (hi.symm.trans hstr')
      rw [getCapacity, hs]
      exact hlen
    · rw [hk k hki] at hstr'
      exact hv.lengths k str' hstr'
  · intro a r ha
    have hstrNo : str.refersTo a = false := by
      obtain ⟨t', c', hs'⟩ := hold
      rw [refersTo, hs']
    have ha : mem.array a = some r := ha
    change r.refCount = (mem.strings.set i trimmed).countP (·.refersTo a)
    rw [counts_set hv hstr ha (hno a), hstrNo, if_neg Bool.false_ne_true]
  · rw [List.length_take]
    omega

theorem pinIndex_le (len : Nat) (start : Int) : pinIndex len start ≤ len := by
  rw [pinIndex]
  split
  · exact Nat.zero_le _
  · split <;> omega

theorem pinIndices_le (len : Nat) (start length : Int) :
    (pinIndices len start length).1 + (pinIndices len start length).2 ≤ len := by
  have h := pinIndex_le len start
  rw [pinIndices]
  split
  · omega
  · split <;> omega

theorem trimAlias_eq (hv : Valid m mem) (hstr : mem.strings[i]? = some str)
    (hA : mem.read (str.getArrayStart i) = some A) (start length : Int) :
    match str.trimAlias start length with
    | .inl trimmed => Replaced m mem i
      ((A.take str.length).take (pinIndices str.length start length).1 ++
        (A.take str.length).drop ((pinIndices str.length start length).1 +
          (pinIndices str.length start length).2)) (mem.setString i trimmed)
    | .inr start' => pinIndices str.length start' length = pinIndices str.length start length := by
  rw [trimAlias]
  cases hs : str.storage with
  | readonlyAlias t c =>
    have hA : A = t := by
      rw [getArrayStart, hs] at hA
      exact (Option.some.inj hA).symm
    subst hA
    have hc := hv.aliases i str A c hstr hs
    have hlen := hv.lengths i str hstr
    rw [getCapacity, hs] at hlen
    dsimp only at hlen ⊢
    by_cases hzero : start = 0
    · subst hzero
      rw [if_pos rfl]
      have hpin : pinIndices str.length 0 length = (0, pinIndex str.length length) := by
        rw [pinIndices]
        have h0 : pinIndex str.length 0 = 0 := by
          rw [pinIndex, if_neg (by omega)]
          split <;> omega
        rw [h0, pinIndex]
        rfl
      have hple := pinIndex_le str.length length
      rw [hpin]
      generalize pinIndex str.length length = n at hple ⊢
      have h := @replaced_alias m mem i str hv hstr ⟨A, c, hs⟩
        (UnicodeString.setLength { str with storage := .readonlyAlias (A.drop n) (c - n) }
          (str.length - n)) (A.drop n) (c - n) (by rw [storage_setLength])
        (by rw [fBuffer_setLength]) (by rw [length_setLength]; omega)
        (by rw [List.length_drop]; omega)
      rw [length_setLength] at h
      rw [List.take_zero, List.nil_append, Nat.zero_add, List.drop_take]
      exact h
    rw [if_neg hzero]
    have hple := pinIndex_le str.length start
    have hsame : pinIndex str.length (pinIndex str.length start : Nat) =
        pinIndex str.length start := by
      rw [pinIndex, if_neg (by omega), if_neg (by omega), Int.toNat_natCast]
    by_cases hend : length ≥ (str.length - pinIndex str.length start : Nat)
    · rw [if_pos hend]
      have hpin : pinIndices str.length start length =
          (pinIndex str.length start, str.length - pinIndex str.length start) := by
        rw [pinIndices, if_neg (by omega)]
        congr 1
        split <;> omega
      have hlength : UnicodeString.length { str.setLength (pinIndex str.length start) with
          storage := .readonlyAlias A (pinIndex str.length start) } = pinIndex str.length start :=
        @length_setLength str (pinIndex str.length start)
      have h := @replaced_alias m mem i str hv hstr ⟨A, c, hs⟩
        { str.setLength (pinIndex str.length start) with
          storage := .readonlyAlias A (pinIndex str.length start) } A
        (pinIndex str.length start) rfl (fBuffer_setLength _) (Nat.le_of_eq hlength)
        (by omega)
      rw [hlength] at h
      rw [hpin]
      rw [List.take_take, Nat.min_eq_left hple, Nat.add_sub_cancel' hple,
        List.drop_eq_nil_of_le (by rw [List.length_take]; omega), List.append_nil]
      exact h
    · rw [if_neg hend]
      simp only [pinIndices, hsame]
  | bogus => rfl
  | shortString => rfl
  | longString a c => rfl

theorem replaced_refl (hv : Valid m mem) (hstr : mem.strings[i]? = some str)
    (hA : mem.read (str.getArrayStart i) = some A) (hle : str.length ≤ A.length) :
    Replaced m mem i (A.take str.length) mem where
  contents := contents_eq hstr hA hle
  others := fun _ _ => rfl
  valid := hv
  length := ⟨str, hstr, by rw [List.length_take, Nat.min_eq_left hle]⟩

/-- The result, with the units that the last copy reads. -/
def Outcome (m : Machine) (mem : Memory) (i : Nat) (str : UnicodeString) (A : List UInt16)
    (start length : Nat) (srcChars : Pointer) (srcStart srcLength : Nat) (result : Option Memory) :
    Prop :=
  ∃ mem' X, result = some mem' ∧ X.length = srcLength ∧
    (0 < srcLength → copiedUnits m mem i str start length srcChars srcStart srcLength = some X) ∧
    Replaced m mem i ((A.take str.length).take start ++ X ++ (A.take str.length).drop
      (start + length))
      mem'

theorem pinIndices_of_ge {len : Nat} {length : Int} (h : start ≥ len) :
    pinIndices len start length = (len, 0) := by
  have hpin : pinIndex len start = len := by
    rw [pinIndex]
    split
    · omega
    · split <;> omega
  rw [pinIndices, hpin, Nat.sub_self]
  congr 1
  split
  · rfl
  · split <;> omega

theorem replaceChars_eq (hv : Valid m mem) (hstr : mem.strings[i]? = some str)
    (hb : str.storage ≠ .bogus) (hA : mem.read (str.getArrayStart i) = some A) (start length : Int)
    (hsource : 0 < srcLength → IsSource mem srcChars srcStart srcLength U) :
    Outcome m mem i str A (pinIndices str.length start length).1
      (pinIndices str.length start length).2 srcChars srcStart srcLength
      (mem.replaceChars m i str start length srcChars srcStart srcLength) := by
  have hAle : str.length ≤ A.length := by
    obtain ⟨units, hunits, hlen⟩ := hv.exists_units hstr hb
    obtain rfl := Option.some.inj (hA.symm.trans hunits)
    exact Nat.le_trans (hv.lengths i str hstr) hlen
  rw [replaceChars]
  by_cases hge : start ≥ str.length
  · rw [if_pos hge, pinIndices_of_ge hge]
    by_cases hzero : srcLength = 0
    · subst hzero
      rw [if_pos rfl]
      refine ⟨mem, [], rfl, rfl, fun h => absurd h (by omega), ?_⟩
      rw [List.append_nil, Nat.add_zero, List.take_append_drop]
      exact replaced_refl hv hstr hA hAle
    rw [if_neg hzero]
    have hsource := hsource (by omega)
    have hrange := @replaceRange_eq m mem i str A U str.length 0 srcStart srcLength srcChars hv hstr
      hb hA (by omega) fun _ => hsource
    obtain ⟨writable, hwritable⟩ : ∃ writable, mem.isBufferWritable str = some writable := by
      obtain ⟨n, hn, hcount⟩ := refCount_eq hv hstr
      rw [isBufferWritable]
      cases hs : str.storage with
      | longString a c =>
        obtain ⟨r, hr, -⟩ := hcount a c hs
        exact ⟨str.isWritable && r.refCount == 1, by dsimp only; rw [hr]; rfl⟩
      | _ => exact ⟨_, rfl⟩
    simp only [Option.bind_eq_bind, Option.bind_some, hwritable]
    by_cases happend : str.length + srcLength ≤ str.getCapacity m ∧ writable = true
    · rw [if_pos happend]
      rw [happend.2] at hwritable
      have hneeds := needsClone_of_writable hstr hv hwritable happend.1
      obtain ⟨mem', happended, hreplaced⟩ := appendInPlace_eq hv hstr hb hA hneeds hge hsource
      refine ⟨mem', (U.drop srcStart).take srcLength, happended, ?_, fun _ => ?_, ?_⟩
      · have := hsource.le
        rw [List.length_take, List.length_drop]
        omega
      · -- there is no tail that could be written over the source
        rw [copiedUnits, hsource.read]
        simp only [Option.bind_eq_bind, Option.bind_some, Nat.sub_zero, hneeds]
        rw [if_neg Bool.false_ne_true, tailUnits, Nat.add_zero, Nat.sub_self, List.take_zero,
          overwrite_nil, ite_self]
        rfl
      · have htail : (A.take str.length).drop (str.length + 0) = [] :=
          List.drop_eq_nil_of_le (by rw [List.length_take]; omega)
        rw [List.take_take, Nat.min_self, htail, List.append_nil]
        exact hreplaced
    · rw [if_neg happend]
      exact hrange
  · rw [if_neg hge]
    exact replaceRange_eq hv hstr hb hA (pinIndices_le _ _ _) hsource

theorem doReplaceChars_eq (hv : Valid m mem) (hstr : mem.strings[i]? = some str)
    (hw : str.isWritable = true) (hA : mem.read (str.getArrayStart i) = some A) (start length : Int)
    (hnull : srcChars = .null → srcLength = 0)
    (hsource : 0 < srcLength → IsSource mem srcChars srcStart srcLength U) :
    Outcome m mem i str A (pinIndices str.length start length).1
      (pinIndices str.length start length).2 srcChars srcStart srcLength
      (mem.doReplaceChars m i start length srcChars srcStart srcLength) := by
  have hb := isWritable_storage hw
  rw [doReplaceChars, hstr]
  simp only [Option.bind_eq_bind, Option.bind_some]
  rw [hw, Bool.not_true, if_neg Bool.false_ne_true]
  -- the rest of the function, from a start that pins to the same index
  have hrest : ∀ start', pinIndices str.length start' length = pinIndices str.length start length →
      Outcome m mem i str A (pinIndices str.length start length).1
        (pinIndices str.length start length).2 srcChars srcStart srcLength
        (if srcChars = .null then mem.replaceChars m i str start' length srcChars 0 0
          else mem.replaceChars m i str start' length srcChars srcStart srcLength) := by
    intro start' hpin
    rw [← hpin]
    by_cases hp : srcChars = .null
    · rw [if_pos hp]
      obtain rfl := hnull hp
      obtain ⟨mem', X, hmem', hX, -, hreplaced⟩ := @replaceChars_eq m mem i str A U 0 0 srcChars hv
        hstr hb hA start' length fun h => absurd h (by omega)
      exact ⟨mem', X, hmem', hX, fun h => absurd h (by omega), hreplaced⟩
    · rw [if_neg hp]
      exact replaceChars_eq hv hstr hb hA start' length hsource
  by_cases hzero : srcLength = 0
  · subst hzero
    rw [if_pos rfl]
    have htrim := trimAlias_eq hv hstr hA start length
    cases htrimmed : str.trimAlias start length with
    | inl trimmed =>
      rw [htrimmed] at htrim
      refine ⟨_, [], rfl, rfl, fun h => absurd h (by omega), ?_⟩
      rw [List.append_nil]
      exact htrim
    | inr start' =>
      rw [htrimmed] at htrim
      exact hrest start' htrim
  · rw [if_neg hzero]
    exact hrest start rfl

/-! ## A source in the string itself -/

variable (m mem i str) in
/-- The source range `[srcStart, srcStart+srcLength)` of the string itself reads the same before
and after the other parts of a replacement of `[start, start+length)` are written. -/
def SourceStays (start length srcStart srcLength : Nat) : Prop :=
  let newLength := str.length - length + srcLength
  if mem.needsClone m str newLength = some true then
    str.storage = .shortString →
      ((stackUnits m mem str newLength (newLength + newLength / 4 + kGrowSize)).drop srcStart).take
        srcLength = (str.fBuffer.drop srcStart).take srcLength
  else
    ∀ old, mem.contents i = some old → ∀ k, srcStart ≤ k → k < srcStart + srcLength →
      start + srcLength ≤ k → k < newLength → old[k + length - srcLength]? = old[k]?

theorem copiedUnits_self_iff (hv : Valid m mem) (hstr : mem.strings[i]? = some str)
    (hb : str.storage ≠ .bogus) (hA : mem.read (str.getArrayStart i) = some A) {start : Nat}
    (hle : start + length ≤ str.length) (hsrc : srcStart + srcLength ≤ str.length)
    (hX : copiedUnits m mem i str start length (str.getArrayStart i) srcStart srcLength = some X) :
    X = (A.drop srcStart).take srcLength ↔
      SourceStays m mem i str start length srcStart srcLength := by
  have hcap : str.getCapacity m ≤ A.length := by
    obtain ⟨units, hunits, hlen⟩ := hv.exists_units hstr hb
    obtain rfl := Option.some.inj (hA.symm.trans hunits)
    exact hlen
  have hAle := Nat.le_trans (hv.lengths i str hstr) hcap
  obtain ⟨n, hn, -⟩ := refCount_eq hv hstr
  rw [copiedUnits, hA] at hX
  rw [SourceStays]
  rw [needsClone, hn, Option.map_some] at hX ⊢
  simp only [Option.bind_eq_bind, Option.bind_some] at hX
  have hX := Option.some.inj hX
  subst hX
  cases hneeded : str.isReadonly || decide (n > 1) ||
    decide (str.length - length + srcLength > str.getCapacity m) with
  | true =>
    rw [if_pos rfl, if_pos rfl]
    by_cases hshort : str.storage = .shortString
    · have hstart : str.getArrayStart i = .stackBuffer i := by rw [getArrayStart, hshort]
      have hbuffer : A = str.fBuffer := by
        rw [hstart, read_stackBuffer hstr, Option.some.injEq] at hA
        exact hA.symm
      rw [if_pos hstart, hbuffer]
      exact ⟨fun h _ => h, fun h => h hshort⟩
    have hstart : str.getArrayStart i ≠ .stackBuffer i := by
      rw [getArrayStart]
      cases hs : str.storage with
      | shortString => exact absurd hs hshort
      | _ => exact fun heq => by cases heq
    rw [if_neg hstart]
    exact ⟨fun _ h => absurd h hshort, fun _ => rfl⟩
  | false =>
    have hno : ¬ (some false = some true) := by decide
    rw [if_neg Bool.false_ne_true, if_pos trivial, if_neg hno]
    rw [Bool.or_eq_false_iff, decide_eq_false_iff_not] at hneeded
    have hfit : start + srcLength ≤ A.length := by omega
    rw [range_overwrite_eq_iff hfit]
    have htail := @length_tailUnits A str.length start length hAle
    have hunit : ∀ k, start + srcLength ≤ k → k < str.length - length + srcLength →
        (tailUnits A str.length start length)[k - (start + srcLength)]? =
          (A.take str.length)[k + length - srcLength]? := by
      intro k hk hlt
      rw [tailUnits, List.getElem?_take_of_lt (by omega), List.getElem?_drop,
        List.getElem?_take_of_lt (by omega)]
      congr 1
      omega
    constructor
    · intro h old hold k hk1 hk2 hk3 hk4
      obtain rfl := Option.some.inj ((contents_eq hstr hA hAle).symm.trans hold)
      rw [← hunit k hk3 hk4, h k hk1 hk2 hk3 (by omega), List.getElem?_take_of_lt (by omega)]
    intro h k hk1 hk2 hk3 hk4
    have hk4 : k < str.length - length + srcLength := by omega
    rw [hunit k hk3 hk4, h _ (contents_eq hstr hA hAle) k hk1 hk2 hk3 hk4,
      List.getElem?_take_of_lt (by omega)]

theorem sourceStays_zero (start length srcStart : Nat) :
    SourceStays m mem i str start length srcStart 0 := by
  rw [SourceStays]
  split
  · exact fun _ => rfl
  intro old _ k hk1 hk2
  omega

theorem copiedUnits_other (hv : Valid m mem) (hstr : mem.strings[i]? = some str)
    (hb : str.storage ≠ .bogus) {start j : Nat} {src : UnicodeString} (hji : j ≠ i)
    (hsrc : mem.strings[j]? = some src) (hread : mem.read (src.getArrayStart j) = some U)
    (hX : copiedUnits m mem i str start length (src.getArrayStart j) srcStart srcLength = some X) :
    X = (U.drop srcStart).take srcLength := by
  set newLength := str.length - length + srcLength with hnewLength
  obtain ⟨mem1, str1, del, needed, -, hneeds, hready, hclone⟩ :=
    @cloneArrayIfNeeded_eq m mem i str hv hstr hb newLength
      (newLength + newLength / 4 + kGrowSize) (by omega) (stackbufSize_lt m newLength)
  rw [copiedUnits, hread] at hX
  simp only [Option.bind_eq_bind, Option.bind_some, ← hnewLength, hneeds] at hX
  cases needed with
  | true =>
    have hne : src.getArrayStart j ≠ .stackBuffer i := by
      rw [getArrayStart]
      cases src.storage with
      | shortString =>
        intro heq
        injection heq with heq
        exact hji heq
      | _ => exact fun heq => by cases heq
    rw [if_pos rfl, if_neg hne] at hX
    exact (Option.some.inj hX).symm
  | false =>
    rw [if_neg Bool.false_ne_true] at hclone hX
    obtain ⟨rfl, rfl⟩ := hclone
    rw [if_neg (hready.away j src hji hsrc)] at hX
    exact (Option.some.inj hX).symm

def spliced (old : List UInt16) (start length : Nat) (units : List UInt16) : List UInt16 :=
  old.take start ++ units ++ old.drop (start + length)

/-- The range of the source string, where a bogus one has no characters. -/
def sourceRange (mem : Memory) (j : Nat) (src : UnicodeString) (srcStart srcLength : Int) :
    List UInt16 :=
  if src.storage = .bogus then []
  else
    let (srcStart, srcLength) := pinIndices src.length srcStart srcLength
    (((mem.contents j).getD []).drop srcStart).take srcLength

/-- The call succeeds with the exact length, and changes no other string. The contents are the ones
of the replacement if and only if the source is another string, or its range stays. -/
theorem doReplace_eq_spliced_iff (hv : Valid m mem) {j : Nat} {src : UnicodeString}
    {old : List UInt16} (hstr : mem.strings[i]? = some str) (hw : str.isWritable = true)
    (hold : mem.contents i = some old) (hsrc : mem.strings[j]? = some src)
    (start length srcStart srcLength : Int) :
    ∃ mem' str', mem.doReplace m i start length j srcStart srcLength = some mem' ∧
      mem'.strings[i]? = some str' ∧ Valid m mem' ∧
      (∀ k, k ≠ i → mem'.contents k = mem.contents k) ∧
      str'.length = (pinIndices old.length start length).1 +
        (sourceRange mem j src srcStart srcLength).length +
        (old.length - ((pinIndices old.length start length).1 +
          (pinIndices old.length start length).2)) ∧
      (mem'.contents i = some (spliced old (pinIndices old.length start length).1
          (pinIndices old.length start length).2 (sourceRange mem j src srcStart srcLength)) ↔
        (j = i → SourceStays m mem i str (pinIndices old.length start length).1
          (pinIndices old.length start length).2 (pinIndices src.length srcStart srcLength).1
          (pinIndices src.length srcStart srcLength).2)) := by
  have hb := isWritable_storage hw
  obtain ⟨A, hA, hAcap⟩ := hv.exists_units hstr hb
  have hAle := Nat.le_trans (hv.lengths i str hstr) hAcap
  obtain rfl := Option.some.inj ((contents_eq hstr hA hAle).symm.trans hold)
  have hlen : (A.take str.length).length = str.length := by
    rw [List.length_take, Nat.min_eq_left hAle]
  rw [hlen]
  have hpinned := pinIndices_le str.length start length
  rw [doReplace, hsrc]
  simp only [Option.bind_eq_bind, Option.bind_some]
  by_cases hbogus : src.storage = .bogus
  · -- remove the range
    have hji : j ≠ i := by
      rintro rfl
      obtain rfl := Option.some.inj (hsrc.symm.trans hstr)
      exact hb hbogus
    obtain ⟨mem', X, hmem', hX, -, hreplaced⟩ := @doReplaceChars_eq m mem i str A [] 0 0 .null hv
      hstr hw hA start length (fun _ => rfl) fun h => absurd h (by omega)
    obtain ⟨str', hstr', hlen'⟩ := hreplaced.length
    obtain rfl := List.eq_nil_of_length_eq_zero hX
    have hrange : sourceRange mem j src srcStart srcLength = [] := by
      rw [sourceRange, if_pos hbogus]
    rw [if_neg (fun h => h hbogus), hrange]
    refine ⟨mem', str', hmem', hstr', hreplaced.valid, hreplaced.others, ?_, ?_⟩
    · rw [hlen', List.length_append, List.length_append, List.length_take, List.length_drop, hlen]
      simp only [List.length_nil]
      omega
    · rw [hreplaced.contents]
      exact ⟨fun _ h => absurd h hji, fun _ => rfl⟩
  obtain ⟨U, hU, hUcap⟩ := hv.exists_units hsrc hbogus
  have hUle := Nat.le_trans (hv.lengths j src hsrc) hUcap
  have hsrcPinned := pinIndices_le src.length srcStart srcLength
  have hnull : src.getArrayStart j ≠ .null := by
    rw [getArrayStart]
    cases hs : src.storage with
    | bogus => exact absurd hs hbogus
    | _ => exact fun heq => by cases heq
  obtain ⟨mem', X, hmem', hX, hcopied, hreplaced⟩ := @doReplaceChars_eq m mem i str A U
    (pinIndices src.length srcStart srcLength).1 (pinIndices src.length srcStart srcLength).2
    (src.getArrayStart j) hv hstr hw hA start length (fun h => absurd h hnull)
    fun _ => ⟨⟨j, src, hsrc, rfl⟩, hU, by omega⟩
  obtain ⟨str', hstr', hlen'⟩ := hreplaced.length
  rw [if_pos hbogus, sourceRange, if_neg hbogus, contents_eq hsrc hU hUle, Option.getD_some]
  refine ⟨mem', str', hmem', hstr', hreplaced.valid, hreplaced.others, ?_, ?_⟩
  · rw [hlen', List.length_append, List.length_append, List.length_take, List.length_drop, hlen, hX]
    rw [List.length_take, List.length_drop, List.length_take]
    omega
  generalize pinIndices src.length srcStart srcLength = srcRange at hsrcPinned hX hcopied ⊢
  generalize pinIndices str.length start length = range at hpinned hcopied hreplaced ⊢
  obtain ⟨ss, sl⟩ := srcRange
  obtain ⟨st, ln⟩ := range
  dsimp only at hsrcPinned hX hcopied hpinned hreplaced ⊢
  have hpiece : ((U.take src.length).drop ss).take sl = (U.drop ss).take sl := by
    rw [List.drop_take, List.take_take, Nat.min_eq_left (by omega)]
  rw [hreplaced.contents, Option.some.injEq, spliced, List.append_left_inj,
    List.append_right_inj, hpiece]
  by_cases hzero : 0 < sl
  · by_cases hji : j = i
    · subst hji
      obtain rfl := Option.some.inj (hsrc.symm.trans hstr)
      obtain rfl := Option.some.inj (hU.symm.trans hA)
      rw [copiedUnits_self_iff hv hsrc hb hU hpinned hsrcPinned (hcopied hzero)]
      exact ⟨fun h _ => h, fun h => h rfl⟩
    · have hsame := copiedUnits_other hv hstr hb hji hsrc hU (hcopied hzero)
      exact ⟨fun _ h => absurd h hji, fun _ => hsame⟩
  · obtain rfl : sl = 0 := by omega
    rw [List.take_zero, List.length_eq_zero_iff.mp hX]
    exact ⟨fun _ _ => sourceStays_zero st ln ss, fun _ => rfl⟩

theorem valid_of_short (hs : ∀ str ∈ mem.strings, str.storage = .shortString ∧
      str.fBuffer.length = m.usStackbufSize ∧ str.length ≤ m.usStackbufSize)
    (ha : mem.arrays = []) : Valid m mem where
  buffers := by
    intro k units hk
    obtain ⟨str, hstr, rfl⟩ := Option.map_eq_some_iff.mp hk
    exact (hs str (List.mem_of_getElem? hstr)).2.1
  arrays := by
    intro k str a c hstr hlong
    rw [(hs str (List.mem_of_getElem? hstr)).1] at hlong
    cases hlong
  aliases := by
    intro k str t c hstr halias
    rw [(hs str (List.mem_of_getElem? hstr)).1] at halias
    cases halias
  lengths := by
    intro k str hstr
    obtain ⟨hshort, -, hle⟩ := hs str (List.mem_of_getElem? hstr)
    rw [getCapacity, hshort]
    exact hle
  counts := by
    intro a r hr
    rw [array, ha] at hr
    cases hr

/-- A little-endian machine with 64-bit pointers: `fArray` is at the offset 8, and `fCapacity`
behind it. -/
def machine64 : Machine where
  pointerSize := 8
  newUnits n := List.replicate n 0
  length_newUnits _ := List.length_replicate
  overlay fBuffer fArray fCapacity := fBuffer.mapIdx fun k u =>
    if 3 ≤ k ∧ k < 7 then UInt16.ofNat (fArray >>> (16 * (k - 3)))
    else if 7 ≤ k ∧ k < 9 then UInt16.ofNat (fCapacity >>> (16 * (k - 7)))
    else u
  length_overlay _ _ _ := List.length_mapIdx

/-- The strings `abcd` and `xy`. -/
def shortStrings : Memory where
  strings := [⟨.shortString, false, 4, 0, [0x61, 0x62, 0x63, 0x64, 0, 0, 0, 0, 0, 0, 0, 0, 0, 0,
    0]⟩,
    ⟨.shortString, false, 2, 0, [0x78, 0x79, 0, 0, 0, 0, 0, 0, 0, 0, 0, 0, 0, 0, 0]⟩]
  arrays := []

/-- Replacing `a` by `y`. -/
theorem doReplace_eq_spliced_xy : ∃ mem',
    shortStrings.doReplace machine64 0 0 1 1 1 1 = some mem' ∧ Valid machine64 mem' ∧
      mem'.contents 0 = some [0x79, 0x62, 0x63, 0x64] := by
  have hv : Valid machine64 shortStrings := valid_of_short (by decide) rfl
  obtain ⟨mem', str', hmem', -, hv', -, -, hiff⟩ := doReplace_eq_spliced_iff hv (i := 0) (j := 1)
    rfl rfl rfl rfl 0 1 1 1
  exact ⟨mem', hmem', hv', hiff.mpr fun h => by cases h⟩

/-- Replacing `a` by the `bc` of the same string: the tail moves over the `c` before it is
copied. -/
theorem doReplace_self_overwritten : Valid machine64 shortStrings ∧
    shortStrings.contents 0 = some [0x61, 0x62, 0x63, 0x64] ∧
    (shortStrings.doReplace machine64 0 0 1 0 1 2).bind (·.contents 0) =
      some [0x62, 0x62, 0x62, 0x63, 0x64] ∧
    spliced [0x61, 0x62, 0x63, 0x64] 0 1 [0x62, 0x63] = [0x62, 0x63, 0x62, 0x63, 0x64] :=
  ⟨valid_of_short (by decide) rfl, by decide, by decide, by decide⟩

end Icu.Memory
