import Icu.UnicodeString.Frames

/-! # `cloneArrayIfNeeded`

After the call, the string has an array of its own that is large enough. The old array is still
there, also if it is to be deleted: only the stack buffer may have been overwritten by the fields.
-/

namespace Icu.Memory

open Lib

variable {m : Machine} {mem : Memory} {i : Nat} {str : UnicodeString} {del : Option Nat}
  {r : RefCounted} {a k : Nat} {str' : UnicodeString}

structure Ready (m : Machine) (mem : Memory) (i newCapacity : Nat) (mem1 : Memory)
    (str1 : UnicodeString) (del : Option Nat) : Prop where
  strings : mem1.strings = mem.strings.set i str1
  bound : i < mem.strings.length
  valid : Valid m mem1
  capacity : newCapacity ≤ str1.getCapacity m
  owned : (str1.getArrayStart i).Owned
  read : ∀ q units, q ≠ .stackBuffer i → mem.read q = some units → mem1.read q = some units
  away : ∀ k str', k ≠ i → mem.strings[k]? = some str' → str'.getArrayStart k ≠ str1.getArrayStart i
  del : ∀ a, del = some a → str1.refersTo a = false ∧
    ∀ k str', k ≠ i → mem.strings[k]? = some str' → str'.refersTo a = false

theorem Ready.getElem? {newCapacity : Nat} {mem1 : Memory} {str1 : UnicodeString}
    (h : Ready m mem i newCapacity mem1 str1 del) : mem1.strings[i]? = some str1 := by
  rw [h.strings, List.getElem?_set_self h.bound]

theorem Ready.exists_units {newCapacity : Nat} {mem1 : Memory} {str1 : UnicodeString}
    (h : Ready m mem i newCapacity mem1 str1 del) :
    ∃ units, mem1.read (str1.getArrayStart i) = some units ∧ newCapacity ≤ units.length := by
  have hb : str1.storage ≠ .bogus := by
    intro heq
    have hown := h.owned
    rw [UnicodeString.getArrayStart, heq] at hown
    exact hown
  obtain ⟨units, hread, hle⟩ := h.valid.exists_units h.getElem? hb
  exact ⟨units, hread, Nat.le_trans h.capacity hle⟩

theorem refCount_eq (hv : Valid m mem) (hstr : mem.strings[i]? = some str) :
    ∃ n, mem.refCount str = some n ∧
      ∀ a c, str.storage = .longString a c → ∃ r, mem.array a = some r ∧ r.refCount = n := by
  rw [refCount]
  cases hs : str.storage with
  | longString a c =>
    obtain ⟨units, hread, -⟩ := hv.arrays i str a c hstr hs
    rw [read, Option.map_eq_some_iff] at hread
    obtain ⟨r, hr, -⟩ := hread
    refine ⟨r.refCount, by dsimp only; rw [hr]; rfl, ?_⟩
    intro a' c' heq
    cases heq
    exact ⟨r, hr, rfl⟩
  | bogus => exact ⟨0, rfl, fun a c heq => by cases heq⟩
  | shortString => exact ⟨0, rfl, fun a c heq => by cases heq⟩
  | readonlyAlias t c => exact ⟨0, rfl, fun a c heq => by cases heq⟩

theorem releaseOld_eq (hr : ∀ a c, str.storage = .longString a c → ∃ r, mem.array a = some r) :
    ∃ mem' del, mem.releaseOld str = some (mem', del) ∧ mem'.strings = mem.strings ∧
      (∀ q, mem'.read q = mem.read q) ∧
      (∀ a, mem'.array a = if str.refersTo a then
        (mem.array a).map fun r => { r with refCount := r.refCount - 1 } else mem.array a) ∧
      ∀ a, del = some a → str.refersTo a = true ∧ ∃ r, mem.array a = some r ∧ r.refCount ≤ 1 := by
  rw [releaseOld]
  cases hs : str.storage with
  | longString a c =>
    obtain ⟨r, ha⟩ := hr a c hs
    have hget := getElem?_of_array ha
    have hrefers : ∀ b, str.refersTo b = decide (b = a) := by
      intro b
      rw [UnicodeString.refersTo, hs]
      rw [Bool.eq_iff_iff, beq_iff_eq, decide_eq_true_iff, eq_comm]
    refine ⟨{ mem with arrays := mem.arrays.set a (some { r with refCount := r.refCount - 1 }) },
      if r.refCount - 1 = 0 then some a else none, by dsimp only; rw [ha]; rfl, rfl, ?_, ?_, ?_⟩
    · intro q
      cases q with
      | array b =>
        rw [read, read, array_set hget]
        by_cases hb : b = a
        · rw [if_pos hb, hb, ha]
          rfl
        · rw [if_neg hb]
      | null => rfl
      | stackBuffer k => rfl
      | text t => rfl
    · intro b
      rw [array_set hget, hrefers]
      by_cases hb : b = a
      · rw [if_pos hb, decide_eq_true hb, if_pos rfl, hb, ha]
        rfl
      · rw [if_neg hb, decide_eq_false hb, if_neg Bool.false_ne_true]
    · intro b hdel
      split at hdel
      case isTrue hzero =>
        obtain rfl := Option.some.inj hdel
        rw [hrefers]
        exact ⟨decide_eq_true rfl, r, ha, by omega⟩
      case isFalse => cases hdel
  | bogus =>
    exact ⟨mem, none, rfl, rfl, fun _ => rfl, fun a => by rw [UnicodeString.refersTo, hs]; rfl,
      fun a h => by cases h⟩
  | shortString =>
    exact ⟨mem, none, rfl, rfl, fun _ => rfl, fun a => by rw [UnicodeString.refersTo, hs]; rfl,
      fun a h => by cases h⟩
  | readonlyAlias t c =>
    exact ⟨mem, none, rfl, rfl, fun _ => rfl, fun a => by rw [UnicodeString.refersTo, hs]; rfl,
      fun a h => by cases h⟩

theorem counts_set (hv : Valid m mem) (hstr : mem.strings[i]? = some str)
    (ha : mem.array a = some r) {str1 : UnicodeString} (h1 : str1.refersTo a = false) :
    (mem.strings.set i str1).countP (·.refersTo a) =
      if str.refersTo a then r.refCount - 1 else r.refCount := by
  have hlt := (List.getElem?_eq_some_iff.mp hstr).1
  have hget : mem.strings[i] = str := (List.getElem?_eq_some_iff.mp hstr).2
  rw [List.countP_set hlt, hget, h1, ← hv.counts a r ha]
  split <;> simp

theorem refersTo_new (hv : Valid m mem)
    (hstr : mem.strings[k]? = some str') : str'.refersTo mem.arrays.length = false := by
  rw [← Bool.not_eq_true, UnicodeString.refersTo_iff]
  rintro ⟨c, hs⟩
  obtain ⟨units, hread, -⟩ := hv.arrays k str' _ c hstr hs
  rw [read, Option.map_eq_some_iff] at hread
  obtain ⟨r, hr, -⟩ := hread
  have := (List.getElem?_eq_some_iff.mp (getElem?_of_array hr)).1
  omega

theorem length_of_lengthBits {str1 : UnicodeString} (h : str1.lengthBits = 0) :
    str1.length = 0 := by
  rw [UnicodeString.length, UnicodeString.hasShortLength, h]
  rfl

theorem lt_of_array (h : mem.array a = some r) : a < mem.arrays.length :=
  (List.getElem?_eq_some_iff.mp (getElem?_of_array h)).1

/-! ## A new array -/

/-- The memory after `allocate(capacity)`, with the new fields of the object. -/
structure Allocated (m : Machine) (mem : Memory) (i newCapacity : Nat) (mem0 : Memory)
    (str1 : UnicodeString) : Prop where
  strings : mem0.strings = mem.strings.set i str1
  kept : ∀ a r, mem.array a = some r → mem0.array a = some r
  new : ∀ a r, mem0.array a = some r → mem.array a = some r ∨
    a = mem.arrays.length ∧ str1.refersTo a = true ∧ r.refCount = 1
  storage : str1.storage = .shortString ∧ newCapacity ≤ m.usStackbufSize ∨
    ∃ c units, str1.storage = .longString mem.arrays.length c ∧
      mem0.read (.array mem.arrays.length) = some units ∧ units.length = c ∧ newCapacity ≤ c
  length : str1.length = 0
  fBuffer : str1.fBuffer.length = m.usStackbufSize

namespace Allocated

variable {newCapacity : Nat} {mem0 mem1 : Memory} {str1 : UnicodeString}
variable (h : Allocated m mem i newCapacity mem0 str1)

include h

theorem refersTo_old (ha : a ≠ mem.arrays.length) : str1.refersTo a = false := by
  rw [← Bool.not_eq_true, UnicodeString.refersTo_iff]
  rintro ⟨c, hs⟩
  rcases h.storage with ⟨hshort, -⟩ | ⟨c', units, hlong, -⟩
  · rw [hshort] at hs
    cases hs
  rw [hlong] at hs
  injection hs with heq
  exact ha heq.symm

theorem getElem?_cases (hlt : i < mem.strings.length) (hk : mem0.strings[k]? = some str') :
    k = i ∧ str' = str1 ∨ k ≠ i ∧ mem.strings[k]? = some str' := by
  rw [h.strings] at hk
  by_cases hki : k = i
  · subst hki
    rw [List.getElem?_set_self hlt] at hk
    exact .inl ⟨rfl, (Option.some.inj hk).symm⟩
  · rw [List.getElem?_set_ne (Ne.symm hki)] at hk
    exact .inr ⟨hki, hk⟩

theorem read_kept {q : Pointer} {units : List UInt16} (hq : q ≠ .stackBuffer i)
    (hread : mem.read q = some units) : mem0.read q = some units := by
  cases q with
  | null => exact hread
  | text t => exact hread
  | stackBuffer k =>
    have hki : i ≠ k := fun heq => hq (by rw [heq])
    rw [read, h.strings, List.getElem?_set_ne hki]
    exact hread
  | array a =>
    rw [read, Option.map_eq_some_iff] at hread
    obtain ⟨r, hr, hunits⟩ := hread
    rw [read, h.kept a r hr]
    exact congrArg some hunits

theorem getArrayStart_ne (hv : Valid m mem)
    (hk : mem.strings[k]? = some str')
    (hne : k ≠ i ∨ str'.storage ≠ .shortString ∨ m.usStackbufSize < newCapacity) :
    str'.getArrayStart k ≠ str1.getArrayStart i := by
  intro heq
  rw [UnicodeString.getArrayStart, UnicodeString.getArrayStart] at heq
  rcases h.storage with ⟨hshort, hle⟩ | ⟨c, units, hlong, -⟩
  · rw [hshort] at heq
    cases hs : str'.storage with
    | shortString =>
      rw [hs] at heq hne
      injection heq with heq
      rcases hne with hne | hne | hne
      · exact hne heq
      · exact hne rfl
      · omega
    | bogus =>
      rw [hs] at heq
      cases heq
    | longString a c =>
      rw [hs] at heq
      cases heq
    | readonlyAlias t c =>
      rw [hs] at heq
      cases heq
  · rw [hlong] at heq
    cases hs : str'.storage with
    | longString a c' =>
      rw [hs] at heq
      injection heq with heq
      have hno := refersTo_new hv hk
      rw [UnicodeString.refersTo, hs, heq] at hno
      simp at hno
    | shortString =>
      rw [hs] at heq
      cases heq
    | bogus =>
      rw [hs] at heq
      cases heq
    | readonlyAlias t c =>
      rw [hs] at heq
      cases heq

theorem ready (hv : Valid m mem) (hstr : mem.strings[i]? = some str) :
    ∃ mem1 del, mem0.releaseOld str = some (mem1, del) ∧
      Ready m mem i newCapacity mem1 str1 del ∧
      mem1.read (.stackBuffer i) = some str1.fBuffer := by
  have hlt := (List.getElem?_eq_some_iff.mp hstr).1
  obtain ⟨n, -, hcount⟩ := refCount_eq hv hstr
  obtain ⟨mem1, del, hrelease, hstrings, hread, harray, hdel⟩ := @releaseOld_eq mem0 str
    fun a c hs => ⟨_, h.kept a _ (hcount a c hs).choose_spec.1⟩
  have hcases : ∀ {k str'}, mem1.strings[k]? = some str' →
      k = i ∧ str' = str1 ∨ k ≠ i ∧ mem.strings[k]? = some str' := by
    intro k str' hk
    rw [hstrings] at hk
    exact h.getElem?_cases hlt hk
  have hstack : mem1.read (.stackBuffer i) = some str1.fBuffer := by
    refine read_stackBuffer ?_
    rw [hstrings, h.strings, List.getElem?_set_self hlt]
  refine ⟨mem1, del, hrelease, ⟨hstrings.trans h.strings, hlt, ⟨?_, ?_, ?_, ?_, ?_⟩, ?_, ?_, ?_,
    fun k str' hki hk => h.getArrayStart_ne hv hk (.inl hki), ?_⟩, hstack⟩
  · intro k units hk
    by_cases hki : k = i
    · rw [hki, hstack, Option.some.injEq] at hk
      rw [← hk, h.fBuffer]
    rw [read, Option.map_eq_some_iff] at hk
    obtain ⟨str', hstr', rfl⟩ := hk
    rcases hcases hstr' with ⟨heq, -⟩ | ⟨-, hstr'⟩
    · exact absurd heq hki
    · exact hv.buffers k _ (read_stackBuffer hstr')
  · intro k str' a c hk hs
    rcases hcases hk with ⟨-, rfl⟩ | ⟨-, hk⟩
    · rcases h.storage with ⟨hshort, -⟩ | ⟨c', units, hlong, hunits, hlen, -⟩
      · rw [hshort] at hs
        cases hs
      rw [hlong] at hs
      cases hs
      exact ⟨units, by rw [hread, hunits], hlen⟩
    · obtain ⟨units, hunits, hlen⟩ := hv.arrays k str' a c hk hs
      exact ⟨units, by rw [hread, h.read_kept (fun heq => by cases heq) hunits], hlen⟩
  · intro k str' t c hk hs
    rcases hcases hk with ⟨-, rfl⟩ | ⟨-, hk⟩
    · rcases h.storage with ⟨hshort, -⟩ | ⟨c', units, hlong, -⟩
      · rw [hshort] at hs
        cases hs
      · rw [hlong] at hs
        cases hs
    · exact hv.aliases k str' t c hk hs
  · intro k str' hk
    rcases hcases hk with ⟨-, rfl⟩ | ⟨-, hk⟩
    · rw [h.length]
      exact Nat.zero_le _
    · exact hv.lengths k str' hk
  · intro a r ha
    rw [hstrings, h.strings]
    -- the array as it was before the decrement
    have hbefore : ∃ r0, mem0.array a = some r0 ∧
        r.refCount = if str.refersTo a then r0.refCount - 1 else r0.refCount := by
      rw [harray] at ha
      split at ha
      case isTrue hrefers =>
        obtain ⟨r0, hr0, rfl⟩ := Option.map_eq_some_iff.mp ha
        exact ⟨r0, hr0, by rw [if_pos hrefers]⟩
      case isFalse hrefers => exact ⟨r, ha, by rw [if_neg hrefers]⟩
    obtain ⟨r0, hr0, hr⟩ := hbefore
    rcases h.new a r0 hr0 with hold | ⟨rfl, hrefers, hone⟩
    · rw [hr, counts_set hv hstr hold (h.refersTo_old (Nat.ne_of_lt (lt_of_array hold)))]
    have hget : mem.strings[i] = str := (List.getElem?_eq_some_iff.mp hstr).2
    have hzero : mem.strings.countP (·.refersTo mem.arrays.length) = 0 := by
      rw [List.countP_eq_zero]
      intro str' hmem
      obtain ⟨k, hk⟩ := List.mem_iff_getElem?.mp hmem
      rw [refersTo_new hv hk]
      exact Bool.false_ne_true
    rw [hr, refersTo_new hv hstr, if_neg Bool.false_ne_true, List.countP_set hlt, hget,
      refersTo_new hv hstr, hzero, hrefers, hone]
    rfl
  · rcases h.storage with ⟨hshort, hle⟩ | ⟨c, units, hlong, -, -, hle⟩
    · rw [UnicodeString.getCapacity, hshort]
      exact hle
    · rw [UnicodeString.getCapacity, hlong]
      exact hle
  · rcases h.storage with ⟨hshort, hle⟩ | ⟨c, units, hlong, -⟩
    · rw [UnicodeString.getArrayStart, hshort]
      trivial
    · rw [UnicodeString.getArrayStart, hlong]
      trivial
  · intro q units hq hunits
    rw [hread]
    exact h.read_kept hq hunits
  · intro a ha
    obtain ⟨hrefers, r0, hr0, hone⟩ := hdel a ha
    have hne : a ≠ mem.arrays.length := by
      rintro rfl
      rw [refersTo_new hv hstr] at hrefers
      cases hrefers
    have hold : mem.array a = some r0 := (h.new a r0 hr0).resolve_right fun hnew => hne hnew.1
    refine ⟨h.refersTo_old hne, fun k str' hki hk => ?_⟩
    rw [← Bool.not_eq_true]
    intro hother
    exact hki (hv.eq_of_refersTo hold hone hstr hrefers hk hother)

end Allocated

/-- `fCapacity` of an array for the capacity -/
def allocatedCapacity (capacity : Nat) : Nat := (allocatedWords capacity - 1) * 2

theorem le_allocatedCapacity (capacity : Nat) : capacity ≤ allocatedCapacity capacity := by
  rw [allocatedCapacity, allocatedWords]
  omega

def stackUnits (m : Machine) (mem : Memory) (str : UnicodeString) (newCapacity growCapacity : Nat) :
    List UInt16 :=
  if newCapacity ≤ m.usStackbufSize then str.fBuffer
  else m.overlay str.fBuffer mem.arrays.length (allocatedCapacity growCapacity)

theorem allocate_eq (hv : Valid m mem) (hstr : mem.strings[i]? = some str)
    {newCapacity growCapacity : Nat}
    (hgrow : newCapacity ≤ growCapacity) (hlarge : m.usStackbufSize < growCapacity) :
    ∃ mem0 str1, mem.allocate m i
        (if newCapacity ≤ m.usStackbufSize ∧ growCapacity > m.usStackbufSize then m.usStackbufSize
          else growCapacity) = some mem0 ∧ Allocated m mem i newCapacity mem0 str1 ∧
      str1.fBuffer = stackUnits m mem str newCapacity growCapacity := by
  have hbuffer := hv.buffers i _ (read_stackBuffer hstr)
  rw [allocate, hstr, stackUnits]
  simp only [Option.bind_eq_bind, Option.bind_some]
  by_cases hle : newCapacity ≤ m.usStackbufSize
  · have hstay : newCapacity ≤ m.usStackbufSize ∧ growCapacity > m.usStackbufSize := ⟨hle, hlarge⟩
    rw [if_pos hstay, if_pos (Nat.le_refl _), if_pos hle]
    exact ⟨_, _, rfl, {
      strings := rfl
      kept := fun a r ha => ha
      new := fun a r ha => .inl ha
      storage := .inl ⟨rfl, hle⟩
      length := length_of_lengthBits rfl
      fBuffer := hbuffer }, rfl⟩
  have hgo : ¬ (newCapacity ≤ m.usStackbufSize ∧ growCapacity > m.usStackbufSize) :=
    fun h => hle h.1
  rw [if_neg hgo, if_neg (by omega), if_neg hle]
  have hnew : ∀ x : Option RefCounted, (mem.arrays ++ [x])[mem.arrays.length]?.join = x := by
    intro x
    rw [List.getElem?_append_right (Nat.le_refl _), Nat.sub_self]
    rfl
  refine ⟨_, _, rfl, {
    strings := rfl
    kept := fun a r ha => ?_
    new := fun a r ha => ?_
    storage := .inr ⟨_, _, rfl, ?_, m.length_newUnits _, ?_⟩
    length := length_of_lengthBits rfl
    fBuffer := (m.length_overlay _ _ _).trans hbuffer }, rfl⟩
  · rw [array]
    rw [List.getElem?_append_left (lt_of_array ha)]
    exact ha
  · rw [array] at ha
    by_cases hlt : a < mem.arrays.length
    · rw [List.getElem?_append_left hlt] at ha
      exact .inl ha
    have haeq : a = mem.arrays.length := by
      by_contra hne
      rw [List.getElem?_append_right (by omega), List.getElem?_eq_none (by simp; omega)] at ha
      cases ha
    subst haeq
    rw [hnew, Option.some.injEq] at ha
    subst ha
    exact .inr ⟨rfl, by simp [UnicodeString.refersTo], rfl⟩
  · rw [read, array]
    rw [hnew]
    rfl
  · exact Nat.le_trans hgrow (le_allocatedCapacity growCapacity)

theorem cloneArrayIfNeeded_eq (hv : Valid m mem) (hstr : mem.strings[i]? = some str)
    (hb : str.storage ≠ .bogus) {newCapacity growCapacity : Nat}
    (hgrow : newCapacity ≤ growCapacity)
    (hlarge : m.usStackbufSize < growCapacity) :
    ∃ mem1 str1 del needed, mem.cloneArrayIfNeeded m i newCapacity growCapacity = some (mem1, del) ∧
      mem.needsClone m str newCapacity = some needed ∧
      Ready m mem i newCapacity mem1 str1 del ∧
      if needed then
        (str.storage ≠ .shortString ∨ m.usStackbufSize < newCapacity) ∧
        str.getArrayStart i ≠ str1.getArrayStart i ∧
          mem1.read (.stackBuffer i) = some (stackUnits m mem str newCapacity growCapacity)
      else mem1 = mem ∧ str1 = str := by
  have hlt := (List.getElem?_eq_some_iff.mp hstr).1
  obtain ⟨n, hn, hcount⟩ := refCount_eq hv hstr
  have hneeds : mem.needsClone m str newCapacity =
      some (str.isReadonly || decide (n > 1) || decide (newCapacity > str.getCapacity m)) := by
    rw [needsClone, hn]
    rfl
  rw [cloneArrayIfNeeded, hstr]
  simp only [Option.bind_eq_bind, Option.bind_some, hneeds]
  cases hneeded : str.isReadonly || decide (n > 1) || decide (newCapacity > str.getCapacity m) with
  | true =>
    obtain ⟨mem0, str1, hallocate, halloc, hunits⟩ := allocate_eq hv hstr hgrow hlarge
    obtain ⟨mem1, del, hrelease, hready, hstack⟩ := halloc.ready hv hstr
    have hkind : str.storage ≠ .shortString ∨ m.usStackbufSize < newCapacity := by
      by_contra hno
      rw [not_or, not_not] at hno
      have hzero : n = 0 := by
        rw [refCount, hno.1] at hn
        exact (Option.some.inj hn).symm
      have hcap : str.getCapacity m = m.usStackbufSize := by
        rw [UnicodeString.getCapacity, hno.1]
      rw [UnicodeString.isReadonly, hno.1, hzero, hcap] at hneeded
      simp at hneeded
      omega
    refine ⟨mem1, str1, del, true, ?_, rfl, hready, ?_⟩
    · rw [if_pos rfl, hallocate, Option.bind_some]
      exact hrelease
    · rw [if_pos rfl]
      exact ⟨hkind, halloc.getArrayStart_ne hv hstr (.inr hkind), by rw [hstack, hunits]⟩
  | false =>
    rw [Bool.or_eq_false_iff, Bool.or_eq_false_iff, decide_eq_false_iff_not,
      decide_eq_false_iff_not] at hneeded
    obtain ⟨⟨hreadonly, hone⟩, hcapacity⟩ := hneeded
    have hstrings : mem.strings = mem.strings.set i str := by
      rw [← (List.getElem?_eq_some_iff.mp hstr).2, List.set_getElem_self]
    refine ⟨mem, str, none, false, rfl, rfl, ⟨hstrings, hlt, hv, by omega, ?_, ?_, ?_, ?_⟩, ?_⟩
    · rw [UnicodeString.getArrayStart]
      cases hs : str.storage with
      | bogus => exact absurd hs hb
      | shortString => trivial
      | longString a c => trivial
      | readonlyAlias t c =>
        rw [UnicodeString.isReadonly, hs] at hreadonly
        cases hreadonly
    · exact fun q units _ hq => hq
    · intro k str' hki hk heq
      rw [UnicodeString.getArrayStart, UnicodeString.getArrayStart] at heq
      cases hs : str.storage with
      | bogus => exact absurd hs hb
      | readonlyAlias t c =>
        rw [UnicodeString.isReadonly, hs] at hreadonly
        cases hreadonly
      | shortString =>
        rw [hs] at heq
        cases hs' : str'.storage with
        | shortString =>
          rw [hs'] at heq
          injection heq with heq
          exact hki heq
        | _ =>
          rw [hs'] at heq
          cases heq
      | longString a c =>
        rw [hs] at heq
        obtain ⟨r, hr, hrn⟩ := hcount a c hs
        cases hs' : str'.storage with
        | longString a' c' =>
          rw [hs'] at heq
          injection heq with heq
          subst heq
          refine hki (hv.eq_of_refersTo hr (by omega) hstr ?_ hk ?_)
          · exact UnicodeString.refersTo_iff.mpr ⟨c, hs⟩
          · exact UnicodeString.refersTo_iff.mpr ⟨c', hs'⟩
        | _ =>
          rw [hs'] at heq
          cases heq
    · intro a ha
      cases ha
    · rw [if_neg Bool.false_ne_true]
      exact ⟨rfl, rfl⟩

end Icu.Memory
