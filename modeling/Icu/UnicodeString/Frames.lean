import Icu.UnicodeString.Model

/-! # Memory and its frames

A copy changes the units behind one pointer. Everything else that the strings are made of stays:
the units behind the other pointers, the fields of the objects, and the reference counts.
-/

namespace Icu

open Lib

variable {a : Nat}

namespace UnicodeString

def header (str : UnicodeString) : UnicodeString := { str with fBuffer := [] }

variable {str str' : UnicodeString}

theorem storage_of_header (h : str.header = str'.header) : str.storage = str'.storage := by
  have hstorage : str.header.storage = str'.header.storage := by rw [h]
  exact hstorage

theorem length_of_header (h : str.header = str'.header) : str.length = str'.length := by
  have hlength : str.header.length = str'.header.length := by rw [h]
  exact hlength

theorem getArrayStart_of_storage (h : str.storage = str'.storage) (i : Nat) :
    str.getArrayStart i = str'.getArrayStart i := by
  rw [getArrayStart, getArrayStart, h]

theorem getCapacity_of_storage (h : str.storage = str'.storage) (m : Machine) :
    str.getCapacity m = str'.getCapacity m := by
  rw [getCapacity, getCapacity, h]

theorem refersTo_iff : str.refersTo a = true ↔ ∃ c, str.storage = .longString a c := by
  rw [refersTo]
  cases str.storage <;> simp

@[simp] theorem storage_setLength (len : Nat) : (str.setLength len).storage = str.storage := by
  rw [setLength]
  split <;> rfl

@[simp] theorem fBuffer_setLength (len : Nat) : (str.setLength len).fBuffer = str.fBuffer := by
  rw [setLength]
  split <;> rfl

@[simp] theorem length_setLength (len : Nat) : (str.setLength len).length = len := by
  rw [setLength]
  split
  case isTrue h =>
    have hshort : (decide (len < 0x400)) = true := by
      rw [kMaxShortLength] at h
      exact decide_eq_true (by omega)
    rw [length, hasShortLength, if_pos hshort]
  case isFalse h => rfl

theorem isWritable_storage (h : str.isWritable = true) : str.storage ≠ .bogus := by
  intro heq
  simp [isWritable, heq] at h

end UnicodeString

/-- A pointer to a stack buffer or to an array with a reference count. -/
def Pointer.Owned : Pointer → Prop
  | .stackBuffer _ => True
  | .array _ => True
  | .null => False
  | .text _ => False

namespace Memory

variable {mem mem' mem'' : Memory} {dst src : Pointer} {i k : Nat}

/-- Only the units behind `dst` are different. -/
structure Frame (dst : Pointer) (mem mem' : Memory) : Prop where
  read : ∀ q, q ≠ dst → mem'.read q = mem.read q
  headers : ∀ k : Nat, mem'.strings[k]?.map UnicodeString.header =
    mem.strings[k]?.map UnicodeString.header
  counts : ∀ a : Nat, (mem'.array a).map (·.refCount) = (mem.array a).map (·.refCount)

theorem Frame.refl (dst : Pointer) (mem : Memory) : Frame dst mem mem :=
  ⟨fun _ _ => rfl, fun _ => rfl, fun _ => rfl⟩

theorem Frame.trans (h : Frame dst mem mem') (h' : Frame dst mem' mem'') : Frame dst mem mem'' :=
  ⟨fun q hq => (h'.read q hq).trans (h.read q hq), fun k => (h'.headers k).trans (h.headers k),
    fun a => (h'.counts a).trans (h.counts a)⟩

theorem array_set {fArray : Nat} {new old : Option RefCounted}
    (h : mem.arrays[fArray]? = some old) (a : Nat) :
    array { mem with arrays := mem.arrays.set fArray new } a =
      if a = fArray then new else mem.array a := by
  have hlt := (List.getElem?_eq_some_iff.mp h).1
  rw [array]
  by_cases ha : a = fArray
  · subst ha
    rw [List.getElem?_set_self hlt, if_pos rfl]
    rfl
  · rw [List.getElem?_set_ne (Ne.symm ha), if_neg ha]
    rfl

theorem getElem?_of_array {fArray : Nat} {a : RefCounted} (h : mem.array fArray = some a) :
    mem.arrays[fArray]? = some (some a) := by
  rw [array] at h
  cases hget : mem.arrays[fArray]? with
  | none =>
    rw [hget] at h
    cases h
  | some o =>
    rw [hget] at h
    exact congrArg some h

theorem write_frame (hown : dst.Owned) {old units : List UInt16} (h : mem.read dst = some old) :
    ∃ mem', mem.write units dst = some mem' ∧ mem'.read dst = some units ∧ Frame dst mem mem' := by
  cases dst with
  | null => exact hown.elim
  | text t => exact hown.elim
  | stackBuffer i =>
    rw [read, Option.map_eq_some_iff] at h
    obtain ⟨str, hstr, -⟩ := h
    have hlt := (List.getElem?_eq_some_iff.mp hstr).1
    refine ⟨{ mem with strings := mem.strings.set i { str with fBuffer := units } },
      by rw [write, hstr]; rfl, ?_, ?_, ?_, fun a => rfl⟩
    · rw [read]
      rw [List.getElem?_set_self hlt]
      rfl
    · intro q hq
      cases q with
      | stackBuffer k =>
        have hne : i ≠ k := fun heq => hq (by rw [heq])
        rw [read, read]
        rw [List.getElem?_set_ne hne]
      | null => rfl
      | array a => rfl
      | text t => rfl
    · intro k
      by_cases hk : i = k
      · subst hk
        rw [List.getElem?_set_self hlt, hstr]
        rfl
      · rw [List.getElem?_set_ne hk]
  | array fArray =>
    rw [read, Option.map_eq_some_iff] at h
    obtain ⟨a, ha, -⟩ := h
    have hget := getElem?_of_array ha
    refine ⟨{ mem with arrays := mem.arrays.set fArray (some { a with units := units }) },
      by rw [write, ha]; rfl, ?_, ?_, fun k => rfl, fun b => ?_⟩
    · rw [read, array_set hget, if_pos rfl]
      rfl
    · intro q hq
      cases q with
      | array b =>
        have hne : b ≠ fArray := fun heq => hq (by rw [heq])
        rw [read, read, array_set hget, if_neg hne]
      | null => rfl
      | stackBuffer k => rfl
      | text t => rfl
    · rw [array_set hget]
      by_cases hb : b = fArray
      · rw [if_pos hb, hb, ha]
        rfl
      · rw [if_neg hb]

/-- A copy inside of the bounds. Without anything to copy, the source is not read. -/
theorem usArrayCopy_frame (hown : dst.Owned) {S D : List UInt16} {srcStart dstStart count : Nat}
    (hsrc : 0 < count → mem.read src = some S ∧ srcStart + count ≤ S.length)
    (hdst : mem.read dst = some D) (hle : dstStart + count ≤ D.length) :
    ∃ mem', mem.usArrayCopy src srcStart dst dstStart count = some mem' ∧
      mem'.read dst = some (overwrite D dstStart ((S.drop srcStart).take count)) ∧
      Frame dst mem mem' := by
  rw [usArrayCopy]
  by_cases hcount : count > 0
  · obtain ⟨hread, hbound⟩ := hsrc hcount
    obtain ⟨mem', hwrite, hnew, hframe⟩ :=
      @write_frame mem dst hown D (overwrite D dstStart ((S.drop srcStart).take count)) hdst
    refine ⟨mem', ?_, hnew, hframe⟩
    rw [if_pos hcount, hread, hdst]
    simp only [Option.bind_eq_bind, Option.bind_some]
    rw [if_pos ⟨hbound, hle⟩]
    exact hwrite
  · obtain rfl : count = 0 := by omega
    rw [if_neg hcount, List.take_zero, overwrite_nil]
    exact ⟨mem, rfl, hdst, .refl dst mem⟩

variable {m : Machine}

structure Valid (m : Machine) (mem : Memory) : Prop where
  buffers : ∀ (k : Nat) (units : List UInt16), mem.read (.stackBuffer k) = some units →
    units.length = m.usStackbufSize
  arrays : ∀ (k : Nat) (str : UnicodeString) (a c : Nat), mem.strings[k]? = some str → str.storage =
    .longString a c →
    ∃ units, mem.read (.array a) = some units ∧ units.length = c
  aliases : ∀ (k : Nat) (str : UnicodeString) (t : List UInt16) (c : Nat), mem.strings[k]? =
    some str →
    str.storage = .readonlyAlias t c → c ≤ t.length
  lengths : ∀ (k : Nat) (str : UnicodeString), mem.strings[k]? = some str →
    str.length ≤ str.getCapacity m
  counts : ∀ (a : Nat) (r : RefCounted), mem.array a = some r → r.refCount =
    mem.strings.countP (·.refersTo a)

theorem read_stackBuffer {str : UnicodeString} (h : mem.strings[i]? = some str) :
    mem.read (.stackBuffer i) = some str.fBuffer := by
  rw [read, h]
  rfl

theorem Valid.exists_units (hv : Valid m mem) {str : UnicodeString}
    (hstr : mem.strings[k]? = some str) (hb : str.storage ≠ .bogus) :
    ∃ units, mem.read (str.getArrayStart k) = some units ∧ str.getCapacity m ≤ units.length := by
  rw [UnicodeString.getArrayStart, UnicodeString.getCapacity]
  cases hs : str.storage with
  | bogus => exact absurd hs hb
  | shortString =>
    have hread := read_stackBuffer hstr
    exact ⟨_, hread, Nat.le_of_eq (hv.buffers k _ hread).symm⟩
  | longString a c =>
    obtain ⟨units, hread, hlen⟩ := hv.arrays k str a c hstr hs
    exact ⟨units, hread, Nat.le_of_eq hlen.symm⟩
  | readonlyAlias t c => exact ⟨t, rfl, hv.aliases k str t c hstr hs⟩

theorem contents_eq {k : Nat} {str : UnicodeString} {units : List UInt16}
    (hstr : mem.strings[k]? = some str) (hread : mem.read (str.getArrayStart k) = some units)
    (hle : str.length ≤ units.length) : mem.contents k = some (units.take str.length) := by
  rw [contents, hstr]
  simp only [Option.bind_eq_bind, Option.bind_some]
  rw [hread, Option.bind_some, if_pos hle]
  rfl

theorem contents_congr
    (hheader : mem'.strings[k]?.map UnicodeString.header = mem.strings[k]?.map UnicodeString.header)
    (hread : ∀ str, mem.strings[k]? = some str →
      mem'.read (str.getArrayStart k) = mem.read (str.getArrayStart k)) :
    mem'.contents k = mem.contents k := by
  rw [contents, contents]
  cases hstr : mem.strings[k]? with
  | none =>
    rw [hstr, Option.map_none, Option.map_eq_none_iff] at hheader
    rw [hheader]
    rfl
  | some str =>
    rw [hstr, Option.map_some, Option.map_eq_some_iff] at hheader
    obtain ⟨str', hstr', hsame⟩ := hheader
    have hstorage := UnicodeString.storage_of_header hsame
    rw [hstr']
    simp only [Option.bind_eq_bind, Option.bind_some]
    rw [UnicodeString.getArrayStart_of_storage hstorage, hread str hstr,
      UnicodeString.length_of_header hsame]

theorem Valid.eq_of_refersTo (hv : Valid m mem) {r : RefCounted}
    {str str' : UnicodeString} (ha : mem.array a = some r) (hcount : r.refCount ≤ 1)
    (hstr : mem.strings[i]? = some str) (hi : str.refersTo a = true)
    (hstr' : mem.strings[k]? = some str') (hk : str'.refersTo a = true) : k = i := by
  by_contra hne
  have hilt := (List.getElem?_eq_some_iff.mp hstr).1
  have hset := List.countP_set (p := fun s : UnicodeString => s.refersTo a)
    (a := { str with storage := .shortString }) hilt
  have hget : mem.strings[i] = str := (List.getElem?_eq_some_iff.mp hstr).2
  have hpos : 0 < (mem.strings.set i { str with storage := .shortString }).countP
      (fun s => s.refersTo a) := by
    rw [List.countP_pos_iff]
    refine ⟨str', ?_, hk⟩
    refine List.mem_of_getElem? (i := k) ?_
    rw [List.getElem?_set_ne (fun heq => hne heq.symm)]
    exact hstr'
  have := hv.counts a r ha
  rw [hset, hget, if_pos hi] at hpos
  have hno : UnicodeString.refersTo { str with storage := .shortString } a = false := rfl
  rw [hno, if_neg Bool.false_ne_true] at hpos
  omega

end Memory

end Icu
