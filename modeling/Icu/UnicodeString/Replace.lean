import Icu.UnicodeString.Clone

/-! # Replacing a range

`replaceRange` leaves the parts of the old string around the units that its last copy reads. These
are the units of the source, unless the source is the string itself and the function has written
over them before.
-/

namespace Icu.Memory

open Lib

variable {m : Machine} {mem : Memory} {i : Nat} {str : UnicodeString} {del : Option Nat}
  {str1 : UnicodeString}

/-- The string `i` has new contents. The other strings have the contents that they had. -/
structure Replaced (m : Machine) (mem : Memory) (i : Nat) (units : List UInt16) (mem' : Memory) :
    Prop where
  contents : mem'.contents i = some units
  others : ∀ k, k ≠ i → mem'.contents k = mem.contents k
  valid : Valid m mem'
  length : ∃ str', mem'.strings[i]? = some str' ∧ str'.length = units.length

/-! ## The end of the function -/

theorem countP_congr_storage {l l' : List UnicodeString}
    (h : ∀ k : Nat, l'[k]?.map UnicodeString.storage = l[k]?.map UnicodeString.storage) (a : Nat) :
    l'.countP (·.refersTo a) = l.countP (·.refersTo a) := by
  have hmap : l'.map UnicodeString.storage = l.map UnicodeString.storage := by
    refine List.ext_getElem? fun k => ?_
    rw [List.getElem?_map, List.getElem?_map, h k]
  have hcount : ∀ l : List UnicodeString, l.countP (·.refersTo a) =
      (l.map UnicodeString.storage).countP fun s => UnicodeString.refersTo ⟨s, false, 0, 0,
        []⟩ a := by
    intro l
    rw [List.countP_map]
    rfl
  rw [hcount, hcount, hmap]

theorem array_deleteBuffer (mem : Memory) (del : Option Nat) (a : Nat) :
    (mem.deleteBuffer del).array a = if del = some a then none else mem.array a := by
  cases del with
  | none => rfl
  | some b =>
    rw [deleteBuffer, array]
    rw [List.getElem?_set]
    by_cases hb : b = a
    · rw [if_pos hb, if_pos (congrArg some hb)]
      split <;> rfl
    · rw [if_neg hb, if_neg (fun h => hb (Option.some.inj h))]
      rfl

theorem strings_deleteBuffer (mem : Memory) (del : Option Nat) :
    (mem.deleteBuffer del).strings = mem.strings := by
  cases del <;> rfl

theorem read_deleteBuffer {q : Pointer} (h : ∀ a, del = some a → q ≠ .array a) :
    (mem.deleteBuffer del).read q = mem.read q := by
  cases q with
  | null => rfl
  | text t => rfl
  | stackBuffer k => rw [read, read, strings_deleteBuffer]
  | array a => rw [read, read, array_deleteBuffer, if_neg (fun hdel => h a hdel rfl)]

theorem getArrayStart_eq_array {a k : Nat} (h : str.getArrayStart k = .array a) :
    str.refersTo a = true := by
  rw [UnicodeString.getArrayStart] at h
  rw [UnicodeString.refersTo]
  cases hs : str.storage with
  | longString b c =>
    rw [hs] at h
    injection h with h
    rw [h]
    exact beq_self_eq_true a
  | _ =>
    rw [hs] at h
    cases h

/-- The units are in place: the length is set, and the old array is deleted. -/
theorem finish {newLength : Nat} {mem1 mem3 : Memory}
    (hv : Valid m mem) (hready : Ready m mem i newLength mem1 str1 del)
    (hframe : Frame (str1.getArrayStart i) mem1 mem3) {D R : List UInt16}
    (hD : mem1.read (str1.getArrayStart i) = some D)
    (hR : mem3.read (str1.getArrayStart i) = some R) (hlen : R.length = D.length) :
    ∃ mem4, mem3.setLengthOf i newLength = some mem4 ∧
      Replaced m mem i (R.take newLength) (mem4.deleteBuffer del) := by
  obtain ⟨str3, hstr3, hheader⟩ : ∃ str3, mem3.strings[i]? = some str3 ∧
      str3.header = str1.header := by
    have h := hframe.headers i
    rw [hready.getElem?, Option.map_some, Option.map_eq_some_iff] at h
    exact h
  have hlt3 := (List.getElem?_eq_some_iff.mp hstr3).1
  have hstorage := UnicodeString.storage_of_header hheader
  set str4 := str3.setLength newLength with hstr4
  refine ⟨mem3.setString i str4, by rw [setLengthOf, hstr3]; rfl, ?_⟩
  set mem5 := (mem3.setString i str4).deleteBuffer del with hmem5
  have hstrings5 : mem5.strings = mem3.strings.set i str4 := strings_deleteBuffer _ _
  have harray5 : ∀ a, mem5.array a = if del = some a then none else mem3.array a :=
    fun a => array_deleteBuffer _ _ a
  have hi5 : mem5.strings[i]? = some str4 := by rw [hstrings5, List.getElem?_set_self hlt3]
  have hk5 : ∀ k : Nat, k ≠ i → mem5.strings[k]? = mem3.strings[k]? := by
    intro k hk
    rw [hstrings5, List.getElem?_set_ne (Ne.symm hk)]
  -- the pointers are those from before, and their units are only different behind the new array
  have hstorage5 : ∀ k : Nat, mem5.strings[k]?.map UnicodeString.storage =
      mem1.strings[k]?.map UnicodeString.storage := by
    intro k
    by_cases hk : k = i
    · subst hk
      rw [hi5, hready.getElem?, Option.map_some, Option.map_some, hstr4,
        UnicodeString.storage_setLength, hstorage]
    have h := congrArg (Option.map UnicodeString.storage) (hframe.headers k)
    rw [Option.map_map, Option.map_map] at h
    rw [hk5 k hk]
    exact h
  have hread3 : ∀ q, (∀ a, del = some a → q ≠ .array a) → mem5.read q = mem3.read q := by
    intro q hq
    rw [hmem5, read_deleteBuffer hq]
    cases q with
    | stackBuffer k =>
      rw [read, read, setString]
      by_cases hk : k = i
      · subst hk
        rw [List.getElem?_set_self hlt3, hstr3, Option.map_some, Option.map_some, hstr4,
          UnicodeString.fBuffer_setLength]
      · rw [List.getElem?_set_ne (Ne.symm hk)]
    | null => rfl
    | text t => rfl
    | array a => rfl
  have hlength5 : ∀ q units, (∀ a, del = some a → q ≠ .array a) → mem1.read q = some units →
      ∃ units', mem5.read q = some units' ∧ units'.length = units.length := by
    intro q units hq hunits
    by_cases hq1 : q = str1.getArrayStart i
    · subst hq1
      rw [hD, Option.some.injEq] at hunits
      exact ⟨R, by rw [hread3 _ hq, hR], by rw [hlen, hunits]⟩
    · exact ⟨units, by rw [hread3 _ hq, hframe.read q hq1, hunits], rfl⟩
  have hnotdel : ∀ (k : Nat) (str' : UnicodeString), mem1.strings[k]? = some str' → ∀ a, del =
    some a →
      str'.refersTo a = false := by
    intro k str' hk a ha
    by_cases hki : k = i
    · subst hki
      rw [hready.getElem?, Option.some.injEq] at hk
      rw [← hk]
      exact (hready.del a ha).1
    · rw [hready.strings, List.getElem?_set_ne (Ne.symm hki)] at hk
      exact (hready.del a ha).2 k str' hki hk
  have hkept : ∀ (k : Nat) (str' : UnicodeString), mem1.strings[k]? = some str' → ∀ a, del =
    some a →
      str'.getArrayStart k ≠ .array a := by
    intro k str' hk a ha heq
    have hno := hnotdel k str' hk a ha
    rw [getArrayStart_eq_array heq] at hno
    cases hno
  have hcap : newLength ≤ R.length := by
    obtain ⟨units, hunits, hle⟩ := hready.exists_units
    rw [hD, Option.some.injEq] at hunits
    rw [hlen, hunits]
    exact hle
  have hget1 : ∀ {k : Nat} {str5 : UnicodeString}, mem5.strings[k]? = some str5 →
      ∃ s1, mem1.strings[k]? = some s1 ∧ str5.storage = s1.storage := by
    intro k str5 hk
    have h := hstorage5 k
    rw [hk, Option.map_some, eq_comm, Option.map_eq_some_iff] at h
    obtain ⟨s1, hs1, heq⟩ := h
    exact ⟨s1, hs1, heq.symm⟩
  refine ⟨?_, ?_, ⟨?_, ?_, ?_, ?_, ?_⟩, str4, hi5, ?_⟩
  · have hstart : str4.getArrayStart i = str1.getArrayStart i :=
      UnicodeString.getArrayStart_of_storage
        (by rw [hstr4, UnicodeString.storage_setLength, hstorage]) i
    have hread5 := hread3 (str1.getArrayStart i) (hkept i str1 hready.getElem?)
    have h := @contents_eq mem5 i str4 R hi5 (by rw [hstart, hread5, hR])
      (by rw [hstr4, UnicodeString.length_setLength]; exact hcap)
    rw [h, hstr4, UnicodeString.length_setLength]
  · intro k hk
    have hmem1 : mem1.strings[k]? = mem.strings[k]? := by
      rw [hready.strings, List.getElem?_set_ne (Ne.symm hk)]
    refine contents_congr ?_ fun str' hstr' => ?_
    · rw [hk5 k hk, hframe.headers k, hmem1]
    have hne := hready.away k str' hk hstr'
    have hdel := hkept k str' (by rw [hmem1, hstr'])
    rw [hread3 _ hdel, hframe.read _ hne]
    by_cases hb : str'.storage = .bogus
    · rw [UnicodeString.getArrayStart, hb]
      rfl
    obtain ⟨units, hunits, -⟩ := hv.exists_units hstr' hb
    rw [hunits]
    refine hready.read _ _ ?_ hunits
    intro heq
    rw [UnicodeString.getArrayStart] at heq
    cases hs : str'.storage with
    | shortString =>
      rw [hs] at heq
      injection heq with heq
      exact hk heq
    | _ =>
      rw [hs] at heq
      cases heq
  · intro k units hk
    have hq : ∀ a, del = some a → Pointer.stackBuffer k ≠ .array a := fun a _ heq => by cases heq
    obtain ⟨s5, hs5, -⟩ := Option.map_eq_some_iff.mp hk
    obtain ⟨s1, hs1, -⟩ := hget1 hs5
    obtain ⟨units', hunits', hlen'⟩ := hlength5 _ _ hq (read_stackBuffer hs1)
    rw [hk, Option.some.injEq] at hunits'
    rw [hunits', hlen']
    exact hready.valid.buffers k _ (read_stackBuffer hs1)
  · intro k s5 a c hk hs
    obtain ⟨s1, hs1, heq⟩ := hget1 hk
    rw [heq] at hs
    obtain ⟨units, hunits, hlen1⟩ := hready.valid.arrays k s1 a c hs1 hs
    have hq : ∀ b, del = some b → Pointer.array a ≠ .array b := by
      intro b hb heq
      injection heq with heq
      subst heq
      have hno := hnotdel k s1 hs1 a hb
      rw [UnicodeString.refersTo_iff.mpr ⟨c, hs⟩] at hno
      cases hno
    obtain ⟨units', hunits', hlen'⟩ := hlength5 _ _ hq hunits
    exact ⟨units', hunits', hlen'.trans hlen1⟩
  · intro k s5 t c hk hs
    obtain ⟨s1, hs1, heq⟩ := hget1 hk
    rw [heq] at hs
    exact hready.valid.aliases k s1 t c hs1 hs
  · intro k s5 hk
    by_cases hki : k = i
    · subst hki
      rw [hi5, Option.some.injEq] at hk
      rw [← hk, @UnicodeString.getCapacity_of_storage _ str1
        (by rw [hstr4, UnicodeString.storage_setLength, hstorage]), hstr4,
        UnicodeString.length_setLength]
      exact hready.capacity
    rw [hk5 k hki] at hk
    have h := hframe.headers k
    rw [hk, Option.map_some, eq_comm, Option.map_eq_some_iff] at h
    obtain ⟨s1, hs1, heq⟩ := h
    rw [← UnicodeString.length_of_header heq,
      ← UnicodeString.getCapacity_of_storage (UnicodeString.storage_of_header heq)]
    exact hready.valid.lengths k s1 hs1
  · intro a r ha
    rw [harray5] at ha
    split at ha
    · cases ha
    have h := hframe.counts a
    rw [ha, Option.map_some, eq_comm, Option.map_eq_some_iff] at h
    obtain ⟨r1, hr1, heq⟩ := h
    rw [← heq, hready.valid.counts a r1 hr1, countP_congr_storage hstorage5]
  · rw [hstr4, UnicodeString.length_setLength, List.length_take]
    omega

section Copies

variable {mem1 : Memory} {q oldArray srcChars : Pointer} {A D E S : List UInt16}
variable {oldLength start length srcStart srcLength : Nat}

def tailUnits (units : List UInt16) (oldLength start length : Nat) : List UInt16 :=
  (units.drop (start + length)).take (oldLength - (start + length))

theorem length_tailUnits (h : oldLength ≤ A.length) :
    (tailUnits A oldLength start length).length = oldLength - (start + length) := by
  rw [tailUnits, List.length_take, List.length_drop]
  omega

theorem copyAround_eq (hown : q.Owned) (hD : mem1.read q = some D)
    (hold : mem1.read oldArray = some E) (hE : oldLength ≤ E.length)
    (hle : start + length ≤ oldLength) (hsize : oldLength - length + srcLength ≤ D.length) :
    ∃ mem2 B, mem1.copyAround oldArray q oldLength start length srcLength = some mem2 ∧
      Frame q mem1 mem2 ∧
      mem2.read q = some (overwrite B (start + srcLength) (tailUnits E oldLength start length)) ∧
      B.length = D.length ∧ B.take start = E.take start ∧ (oldArray = q → B = D) := by
  rw [copyAround]
  by_cases hq : q = oldArray
  · subst hq
    rw [hD, Option.some.injEq] at hold
    subst hold
    rw [if_neg (fun h => h rfl)]
    by_cases hsame : length = srcLength
    · subst hsame
      rw [if_neg (fun h => h rfl)]
      refine ⟨mem1, D, rfl, .refl q mem1, ?_, rfl, rfl, fun _ => rfl⟩
      rw [tailUnits, overwrite_self, hD]
    · rw [if_pos hsame]
      obtain ⟨mem2, hcopy, hread, hframe⟩ := @usArrayCopy_frame mem1 q q hown D D
        (start + length) (start + srcLength) (oldLength - (start + length)) (fun _ =>
          ⟨hD, by omega⟩) hD (by omega)
      exact ⟨mem2, D, hcopy, hframe, hread, rfl, rfl, fun _ => rfl⟩
  rw [if_pos hq]
  obtain ⟨mem2, hcopy, hread, hframe⟩ := @usArrayCopy_frame mem1 q oldArray hown E D 0 0 start
    (fun _ => ⟨hold, by omega⟩) hD (by omega)
  have hlen : (overwrite D 0 ((E.drop 0).take start)).length = D.length := by
    refine length_overwrite ?_
    rw [List.drop_zero, List.length_take]
    omega
  have hold2 : mem2.read oldArray = some E := by rw [hframe.read _ (Ne.symm hq), hold]
  obtain ⟨mem3, hcopy', hread', hframe'⟩ := @usArrayCopy_frame mem2 q oldArray hown E
    _ (start + length) (start + srcLength) (oldLength - (start + length)) (fun _ =>
      ⟨hold2, by omega⟩) hread
    (by rw [hlen]; omega)
  refine ⟨mem3, _, ?_, hframe.trans hframe', hread', hlen, ?_, fun heq => absurd heq.symm hq⟩
  · rw [hcopy, Option.bind_eq_bind, Option.bind_some, hcopy']
  rw [List.drop_zero, overwrite, List.take_zero, List.nil_append]
  rw [List.take_append_of_le_length (by rw [List.length_take]; omega), List.take_take,
    Nat.min_self]

end Copies

/-! ## The rest of the function -/

variable (m mem i str) in
def copiedUnits (start length : Nat) (srcChars : Pointer) (srcStart srcLength : Nat) :
    Option (List UInt16) := do
  let oldLength := str.length
  let newLength := oldLength - length + srcLength
  let units ← mem.read srcChars
  let needed ← mem.needsClone m str newLength
  let units :=
    if needed then
      if srcChars = .stackBuffer i then
        stackUnits m mem str newLength (newLength + newLength / 4 + kGrowSize)
      else units
    else if srcChars = str.getArrayStart i then
      overwrite units (start + srcLength) (tailUnits units oldLength start length)
    else units
  return (units.drop srcStart).take srcLength

/-- A range of the units of a valid string, which is not bogus. -/
structure IsSource (mem : Memory) (srcChars : Pointer) (srcStart srcLength : Nat)
    (units : List UInt16) : Prop where
  exists_string : ∃ (j : Nat) (src : UnicodeString), mem.strings[j]? = some src ∧ srcChars =
    src.getArrayStart j
  read : mem.read srcChars = some units
  le : srcStart + srcLength ≤ units.length

variable {A U : List UInt16} {start length srcStart srcLength : Nat} {srcChars : Pointer}

theorem stackbufSize_lt (m : Machine) (n : Nat) : m.usStackbufSize < n + n / 4 + kGrowSize := by
  rw [Machine.usStackbufSize, kGrowSize]
  split <;> omega

theorem exists_copied (hv : Valid m mem) (hstr : mem.strings[i]? = some str)
    {mem1 mem2 : Memory} {needed : Bool}
    (hneeds : mem.needsClone m str (str.length - length + srcLength) = some needed)
    (hready : Ready m mem i (str.length - length + srcLength) mem1 str1 del)
    (hclone : if needed then
        (str.storage ≠ .shortString ∨ m.usStackbufSize < str.length - length + srcLength) ∧
        str.getArrayStart i ≠ str1.getArrayStart i ∧
          mem1.read (.stackBuffer i) = some (stackUnits m mem str (str.length - length + srcLength)
            (str.length - length + srcLength + (str.length - length + srcLength) / 4 + kGrowSize))
      else mem1 = mem ∧ str1 = str)
    (hsource : IsSource mem srcChars srcStart srcLength U)
    (hframe : Frame (str1.getArrayStart i) mem1 mem2)
    (hplace : needed = false → mem2.read (str.getArrayStart i) =
      (mem.read (str.getArrayStart i)).map fun units =>
        overwrite units (start + srcLength) (tailUnits units str.length start length))
    (hbound : start + srcLength + (str.length - (start + length)) ≤ U.length ∨
      srcChars ≠ str.getArrayStart i ∨ needed = true) :
    ∃ S, mem2.read srcChars = some S ∧ srcStart + srcLength ≤ S.length ∧
      copiedUnits m mem i str start length srcChars srcStart srcLength =
        some ((S.drop srcStart).take srcLength) := by
  obtain ⟨⟨j, src, hsrc, rfl⟩, hread, hle⟩ := hsource
  rw [copiedUnits, hread, hneeds]
  simp only [Option.bind_eq_bind, Option.bind_some]
  cases needed with
  | true =>
    rw [if_pos rfl] at hclone ⊢
    obtain ⟨-, hne, hstack⟩ := hclone
    have haway : src.getArrayStart j ≠ str1.getArrayStart i := by
      by_cases hji : j = i
      · subst hji
        obtain rfl := Option.some.inj (hsrc.symm.trans hstr)
        exact hne
      · exact hready.away j src hji hsrc
    rw [hframe.read _ haway]
    by_cases hp : src.getArrayStart j = .stackBuffer i
    · rw [if_pos hp, hp, hstack]
      rw [hp, read_stackBuffer hstr, Option.some.injEq] at hread
      refine ⟨_, rfl, ?_, rfl⟩
      rw [stackUnits]
      split
      · rw [hread]
        exact hle
      · rw [m.length_overlay, hread]
        exact hle
    · rw [if_neg hp, hready.read _ _ hp hread]
      exact ⟨U, rfl, hle, rfl⟩
  | false =>
    rw [if_neg Bool.false_ne_true] at hclone ⊢
    obtain ⟨rfl, rfl⟩ := hclone
    by_cases hp : src.getArrayStart j = str1.getArrayStart i
    · rw [if_pos hp, hp, hplace rfl, ← hp, hread]
      refine ⟨_, rfl, ?_, rfl⟩
      have hfit : start + srcLength + (str1.length - (start + length)) ≤ U.length := by
        rcases hbound with hfit | hno | hno
        · exact hfit
        · exact absurd hp hno
        · cases hno
      rw [length_overwrite]
      · exact hle
      rw [tailUnits, List.length_take, List.length_drop]
      omega
    · rw [if_neg hp, hframe.read _ hp, hread]
      exact ⟨U, rfl, hle, rfl⟩

theorem replaceRange_eq (hv : Valid m mem) (hstr : mem.strings[i]? = some str)
    (hb : str.storage ≠ .bogus) (hA : mem.read (str.getArrayStart i) = some A)
    (hle : start + length ≤ str.length)
    (hsource : 0 < srcLength → IsSource mem srcChars srcStart srcLength U) :
    ∃ mem' X, mem.replaceRange m i start length srcChars srcStart srcLength = some mem' ∧
      X.length = srcLength ∧
      (0 < srcLength → copiedUnits m mem i str start length srcChars srcStart srcLength = some X) ∧
      Replaced m mem i ((A.take str.length).take start ++ X ++
        (A.take str.length).drop (start + length)) mem' := by
  set newLength := str.length - length + srcLength with hnewLength
  set growCapacity := newLength + newLength / 4 + kGrowSize with hgrow
  have hcap := hv.lengths i str hstr
  have hAle : str.length ≤ A.length := by
    obtain ⟨units, hunits, hlen⟩ := hv.exists_units hstr hb
    obtain rfl := Option.some.inj (hA.symm.trans hunits)
    omega
  obtain ⟨mem1, str1, del, needed, hcloned, hneeds, hready, hclone⟩ :=
    @cloneArrayIfNeeded_eq m mem i str hv hstr hb newLength growCapacity (by omega)
      (stackbufSize_lt m newLength)
  obtain ⟨D, hD, hDle⟩ := hready.exists_units
  -- the units of the old array, or of the copy of the stack buffer
  set oldArray : Pointer :=
    if str.storage = .shortString ∧ newLength > m.usStackbufSize then
      .text (str.fBuffer.take str.length)
    else str.getArrayStart i with holdArray
  obtain ⟨E, hE, hEtake, hinPlace⟩ : ∃ E, mem1.read oldArray = some E ∧
      E.take str.length = A.take str.length ∧
      (needed = false → oldArray = str1.getArrayStart i ∧ E = A ∧ D = A) := by
    rw [holdArray]
    by_cases hshort : str.storage = .shortString ∧ newLength > m.usStackbufSize
    · have hAbuffer : A = str.fBuffer := by
        rw [UnicodeString.getArrayStart, hshort.1, read_stackBuffer hstr, Option.some.injEq] at hA
        exact hA.symm
      rw [if_pos hshort]
      refine ⟨_, rfl, by rw [List.take_take, Nat.min_self, hAbuffer], fun hno => ?_⟩
      rw [hno, if_neg Bool.false_ne_true] at hclone
      have hcapacity := hready.capacity
      rw [hclone.2, UnicodeString.getCapacity, hshort.1] at hcapacity
      exact absurd hcapacity (Nat.not_le.mpr hshort.2)
    rw [if_neg hshort]
    cases hneeded : needed with
    | true =>
      rw [hneeded, if_pos rfl] at hclone
      have hnot : str.getArrayStart i ≠ .stackBuffer i := by
        intro heq
        have hshort' : str.storage = .shortString := by
          rw [UnicodeString.getArrayStart] at heq
          cases hs : str.storage with
          | shortString => rfl
          | _ =>
            rw [hs] at heq
            cases heq
        rcases hclone.1 with hno | hlarge
        · exact hno hshort'
        · exact hshort ⟨hshort', hlarge⟩
      exact ⟨A, hready.read _ _ hnot hA, rfl, fun h => by cases h⟩
    | false =>
      rw [hneeded, if_neg Bool.false_ne_true] at hclone
      obtain ⟨rfl, rfl⟩ := hclone
      exact ⟨A, hA, rfl, fun _ => ⟨rfl, rfl, Option.some.inj (hD.symm.trans hA)⟩⟩
  have hEle : str.length ≤ E.length := by
    have h := congrArg List.length hEtake
    rw [List.length_take, List.length_take] at h
    omega
  obtain ⟨mem2, B, hcopies, hframe, hread2, hBlen, hBtake, hBinPlace⟩ :=
    @copyAround_eq mem1 (str1.getArrayStart i) oldArray D E str.length start length srcLength
      hready.owned hD hE hEle hle hDle
  have hfit : start + srcLength + (tailUnits E str.length start length).length ≤ B.length := by
    rw [length_tailUnits hEle, hBlen]
    omega
  have hlen2 : (overwrite B (start + srcLength) (tailUnits E str.length start length)).length =
      D.length := by rw [length_overwrite hfit, hBlen]
  -- the units of the source
  obtain ⟨S, X, hXlen, hX, hS, hcopied⟩ : ∃ S X : List UInt16, X.length = srcLength ∧
      X = (S.drop srcStart).take srcLength ∧
      (0 < srcLength → mem2.read srcChars = some S ∧ srcStart + srcLength ≤ S.length) ∧
      (0 < srcLength → copiedUnits m mem i str start length srcChars srcStart srcLength =
        some X) := by
    by_cases hzero : 0 < srcLength
    · have hUbound : start + srcLength + (str.length - (start + length)) ≤ U.length ∨
          srcChars ≠ str.getArrayStart i ∨ needed = true := by
        by_cases hp : srcChars = str.getArrayStart i
        · cases hneeded : needed with
          | true => exact .inr (.inr rfl)
          | false =>
            left
            obtain ⟨-, -, hDA⟩ := hinPlace hneeded
            have hU := (hsource hzero).read
            rw [hp, hA, Option.some.injEq] at hU
            rw [← hU, ← hDA]
            omega
        · exact .inr (.inl hp)
      obtain ⟨S, hS, hSle, hcopied⟩ := exists_copied hv hstr hneeds hready hclone (hsource hzero)
        hframe
        (by
          intro hneeded
          obtain ⟨hq, hEA, hDA⟩ := hinPlace hneeded
          rw [hneeded, if_neg Bool.false_ne_true] at hclone
          rw [hclone.2] at hread2 hq
          rw [hread2, hA, Option.map_some, hBinPlace (by rw [hclone.2]; exact hq), hDA, hEA])
        hUbound
      refine ⟨S, _, ?_, rfl, fun _ => ⟨hS, hSle⟩, fun _ => hcopied⟩
      rw [List.length_take, List.length_drop]
      omega
    · obtain rfl : srcLength = 0 := by omega
      exact ⟨[], [], rfl, by simp, fun h => absurd h (by omega), fun h => absurd h (by omega)⟩
  obtain ⟨mem3, hfill, hread3, hframe3⟩ := @usArrayCopy_frame mem2 (str1.getArrayStart i) srcChars
    hready.owned S _ srcStart start srcLength hS hread2 (by rw [hlen2]; omega)
  rw [← hX] at hread3
  obtain ⟨mem4, hsetLength, hreplaced⟩ := finish hv hready (hframe.trans hframe3) hD hread3 (by
    rw [length_overwrite (by rw [hlen2, hXlen]; omega), hlen2])
  refine ⟨mem4.deleteBuffer del, X, ?_, hXlen, hcopied, ?_⟩
  · rw [replaceRange, hstr]
    simp only [Option.bind_eq_bind, Option.bind_some]
    rw [hcloned, Option.bind_some]
    rw [hready.getElem?, Option.bind_some, hcopies, Option.bind_some, hfill, Option.bind_some,
      hsetLength]
    rfl
  -- what the new array begins with
  have hunits : (overwrite (overwrite B (start + srcLength) (tailUnits E str.length start length))
      start X).take newLength = (A.take str.length).take start ++ X ++
        (A.take str.length).drop (start + length) := by
    have hall := @take_overwrite_overwrite _ B X (tailUnits E str.length start length) start
      (by rw [hXlen]; exact hfit)
    rw [hXlen, length_tailUnits hEle] at hall
    rw [show newLength = start + srcLength + (str.length - (start + length)) by omega, hall,
      hBtake, ← hEtake, List.take_take, Nat.min_eq_left (by omega), List.drop_take]
    rfl
  rw [hunits] at hreplaced
  exact hreplaced

end Icu.Memory
