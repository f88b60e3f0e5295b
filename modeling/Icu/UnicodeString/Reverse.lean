import Icu.UnicodeString.ValueSemantics
import Icu.Utf16.CodePoints

/-! # Reversing a range

`doReverse` reverses the units, and then the trail and lead units that have become neighbors. The
range gets the code points in the reverse order: a trail and a lead unit that were neighbors the
other way around stay apart, because a pair only leaves its own lead unit behind its trail unit.
-/

namespace Icu

open Lib Utf16

namespace UnicodeString

/-- The first loop. It swaps the units at both ends, and looks for lead surrogates. -/
def swapUnits (units : List UInt16) (left right : Nat) (hasSupplementary : Bool) :
    Option (List UInt16 × Nat × Bool) := do
  let swap ← units[left]?
  let unit ← units[right]?
  let hasSupplementary := hasSupplementary || u16IsLead swap.toNat || u16IsLead unit.toNat
  let units := (units.set left unit).set right swap
  if left + 1 < right - 1 then swapUnits units (left + 1) (right - 1) hasSupplementary
  else return (units, left + 1, hasSupplementary)
termination_by right - left

def swapSurrogates (units : List UInt16) (left right : Nat) : Option (List UInt16) := do
  if left < right then
    let swap ← units[left]?
    if u16IsTrail swap.toNat then
      let swap2 ← units[left + 1]?
      if u16IsLead swap2.toNat then
        swapSurrogates ((units.set left swap2).set (left + 1) swap) (left + 2) right
      else swapSurrogates units (left + 1) right
    else swapSurrogates units (left + 1) right
  else return units
termination_by right - left

/-- The units after `doReverse` of a range with at least two units. -/
def reverseRange (units : List UInt16) (start length : Nat) : Option (List UInt16) := do
  let (units, left, hasSupplementary) ← swapUnits units start (start + length - 1) false
  -- test the middle code unit of an odd-length string
  let middle ← units[left]?
  if hasSupplementary || u16IsLead middle.toNat then
    swapSurrogates units start (start + length - 1)
  else return units

def swapPairs : List UInt16 → List UInt16
  | [] => []
  | [u] => [u]
  | u :: u2 :: s =>
    if u16IsTrail u.toNat && u16IsLead u2.toNat then u2 :: u :: swapPairs s
    else u :: swapPairs (u2 :: s)

def reverseCodePoints (s : List UInt16) : List UInt16 := utf16 (codePoints s).reverse

/-- The string with the code points of a range in the reverse order. -/
def rangeReversed (s : List UInt16) (start length : Nat) : List UInt16 :=
  s.take start ++ reverseCodePoints ((s.drop start).take length) ++ s.drop (start + length)

variable {A B s : List UInt16} {u u2 : UInt16}

theorem getElem?_behind (A B : List UInt16) (u : UInt16) : (A ++ u :: B)[A.length]? = some u := by
  simp

theorem set_behind (A B : List UInt16) (u v : UInt16) :
    (A ++ u :: B).set A.length v = A ++ v :: B := by
  simp

theorem swapUnits_step (A m B : List UInt16) (x y : UInt16) (has : Bool) :
    swapUnits (A ++ x :: (m ++ y :: B)) A.length (A.length + m.length + 1) has =
      if 2 ≤ m.length then
        swapUnits (A ++ y :: (m ++ x :: B)) (A.length + 1) (A.length + m.length)
          (has || u16IsLead x.toNat || u16IsLead y.toNat)
      else some (A ++ y :: (m ++ x :: B), A.length + 1,
        has || u16IsLead x.toNat || u16IsLead y.toNat) := by
  have hright : ∀ (z : UInt16) (R : List UInt16), A ++ z :: (m ++ R) = (A ++ z :: m) ++ R := by simp
  have hlen : ∀ z : UInt16, A.length + m.length + 1 = (A ++ z :: m).length := by
    intro z
    simp
    omega
  have hread : (A ++ x :: (m ++ y :: B))[A.length + m.length + 1]? = some y := by
    rw [hright, hlen x]
    exact getElem?_behind _ _ _
  have hwrite : ((A ++ x :: (m ++ y :: B)).set A.length y).set (A.length + m.length + 1) x =
      A ++ y :: (m ++ x :: B) := by
    rw [set_behind, hright, hlen y, set_behind, ← hright]
  rw [swapUnits, getElem?_behind, hread]
  simp only [Option.bind_eq_bind, Option.bind_some, Nat.add_sub_cancel, hwrite]
  by_cases hm : 2 ≤ m.length
  · rw [if_pos (by omega), if_pos hm]
  rw [if_neg (by omega), if_neg hm]
  rfl

/-- The first loop reverses the units. With the unit in the middle, it sees all of them. -/
theorem swapUnits_eq (n : Nat) : ∀ (A s B : List UInt16) (has : Bool), s.length = n → 2 ≤ n →
    ∃ left has' middle, swapUnits (A ++ s ++ B) A.length (A.length + n - 1) has =
        some (A ++ s.reverse ++ B, left, has') ∧
      (A ++ s.reverse ++ B)[left]? = some middle ∧
      (has' || u16IsLead middle.toNat) = (has || s.any fun u => u16IsLead u.toNat) := by
  induction n using Nat.strongRecOn with
  | ind n ih =>
    intro A s B has hs hn
    obtain ⟨x, t, rfl⟩ := List.exists_cons_of_length_pos (l := s) (by omega)
    have ht : t ≠ [] := by
      rintro rfl
      simp at hs
      omega
    obtain ⟨m, y, rfl⟩ := t.eq_nil_or_concat.resolve_left ht
    have hlen : m.length + 2 = n := by simpa using hs
    have hstep := swapUnits_step A m B x y has
    have hlist : A ++ x :: (m ++ y :: B) = A ++ (x :: m.concat y) ++ B := by simp
    rw [hlist, show A.length + m.length + 1 = A.length + n - 1 by omega] at hstep
    rw [hstep]
    by_cases hm : 2 ≤ m.length
    · obtain ⟨left, has', middle, hrun, hmiddle, hsees⟩ := ih m.length (by omega) (A ++ [y]) m
        (x :: B) (has || u16IsLead x.toNat || u16IsLead y.toNat) rfl hm
      refine ⟨left, has', middle, ?_, ?_, ?_⟩
      · rw [if_pos hm]
        simpa [show A.length + m.length = A.length + (1 + m.length) - 1 by omega, Nat.add_assoc]
          using hrun
      · simpa using hmiddle
      · rw [hsees]
        simp [Bool.or_comm, Bool.or_assoc]
    · rw [if_neg hm]
      refine ⟨A.length + 1, has || u16IsLead x.toNat || u16IsLead y.toNat, ?_⟩
      match m, hm with
      | [], _ => exact ⟨x, by simp, by simp, by simp; grind⟩
      | [z], _ => exact ⟨z, by simp, by simp, by simp; grind⟩
      | _ :: _ :: _, hm => simp at hm

theorem swapSurrogates_eq (s : List UInt16) : ∀ A B : List UInt16,
    swapSurrogates (A ++ s ++ B) A.length (A.length + s.length - 1) =
      some (A ++ swapPairs s ++ B) := by
  induction s using swapPairs.induct with
  | case1 =>
    intro A B
    rw [swapSurrogates, if_neg (by simp)]
    simp [swapPairs]
  | case2 u =>
    intro A B
    rw [swapSurrogates, if_neg (by simp)]
    simp [swapPairs]
  | case3 u u2 s hpair ih =>
    intro A B
    have hnext := ih (A ++ [u2, u]) B
    rw [swapPairs, if_pos hpair]
    rw [Bool.and_eq_true] at hpair
    rw [swapSurrogates, if_pos (by simp)]
    have hsecond : (A ++ u :: u2 :: (s ++ B))[A.length + 1]? = some u2 := by simp
    have hset : ((A ++ u :: u2 :: (s ++ B)).set A.length u2).set (A.length + 1) u =
        A ++ u2 :: u :: (s ++ B) := by simp
    have hright : A.length + (s.length + 1 + 1) - 1 = A.length + 2 + s.length - 1 := by omega
    simp only [List.append_assoc, List.cons_append, List.nil_append, List.length_append,
      List.length_cons, List.length_nil] at hnext ⊢
    simp only [getElem?_behind, hsecond, hset, hright, hpair.1, hpair.2, Option.bind_eq_bind,
      Option.bind_some, if_true]
    exact hnext
  | case4 u u2 s hpair ih =>
    intro A B
    have hnext := ih (A ++ [u]) B
    rw [swapPairs, if_neg hpair]
    rw [swapSurrogates, if_pos (by simp)]
    have hsecond : (A ++ u :: u2 :: (s ++ B))[A.length + 1]? = some u2 := by simp
    have hright : A.length + (s.length + 1 + 1) - 1 = A.length + 1 + (s.length + 1) - 1 := by omega
    simp only [List.append_assoc, List.cons_append, List.nil_append, List.length_append,
      List.length_cons, List.length_nil] at hnext ⊢
    simp only [getElem?_behind, hsecond, hright, Option.bind_eq_bind, Option.bind_some]
    cases htrail : u16IsTrail u.toNat with
    | false => exact hnext
    | true =>
      rw [htrail, Bool.true_and] at hpair
      rw [if_pos rfl, if_neg hpair]
      exact hnext

/-! ## The code points -/

/-- A trail unit does not go with a lead unit behind it, if these do not belong to one range. -/
theorem swapPairs_append (s t : List UInt16)
    (h : ∀ u ∈ s.getLast?, ∀ u2 ∈ t.head?, ¬ (u16IsTrail u.toNat && u16IsLead u2.toNat) = true) :
    swapPairs (s ++ t) = swapPairs s ++ swapPairs t := by
  induction s using swapPairs.induct with
  | case1 => rfl
  | case2 u =>
    cases t with
    | nil => rfl
    | cons u2 t =>
      change swapPairs (u :: u2 :: t) = u :: swapPairs (u2 :: t)
      rw [swapPairs, if_neg (h u rfl u2 rfl)]
  | case3 u u2 s hpair ih =>
    have hrest : ∀ v ∈ s.getLast?, ∀ v2 ∈ t.head?,
        ¬ (u16IsTrail v.toNat && u16IsLead v2.toNat) = true := by
      intro v hv
      refine h v ?_
      rw [List.getLast?_cons, List.getLast?_cons, hv]
      rfl
    rw [List.cons_append, List.cons_append, swapPairs, if_pos hpair, ih hrest, swapPairs,
      if_pos hpair]
    rfl
  | case4 u u2 s hpair ih =>
    have hrest : ∀ v ∈ (u2 :: s).getLast?, ∀ v2 ∈ t.head?,
        ¬ (u16IsTrail v.toNat && u16IsLead v2.toNat) = true := by
      intro v hv
      refine h v ?_
      rw [List.getLast?_cons_cons]
      exact hv
    rw [List.cons_append, List.cons_append, swapPairs, if_neg hpair, ← List.cons_append,
      ih hrest, swapPairs, if_neg hpair]
    rfl

theorem not_lead_of_trail {u : UInt16} (h : u16IsTrail u.toNat = true) :
    u16IsLead u.toNat = false := by
  have hlt := u.toNat_lt
  rw [u16IsTrail_iff (by omega)] at h
  rw [← Bool.not_eq_true, u16IsLead_iff (by omega)]
  omega

theorem swapPairs_of_no_lead {s : List UInt16} (h : (s.any fun u => u16IsLead u.toNat) = false) :
    swapPairs s = s := by
  induction s using swapPairs.induct with
  | case1 => rfl
  | case2 u => rfl
  | case3 u u2 s hpair ih => simp_all
  | case4 u u2 s hpair ih =>
    rw [List.any_cons, Bool.or_eq_false_iff] at h
    rw [swapPairs, if_neg hpair, ih h.2]

theorem swapPairs_reverse (s : List UInt16) : swapPairs s.reverse = reverseCodePoints s := by
  induction s using codePoints.induct with
  | case1 => rfl
  | case2 u => simp [swapPairs, reverseCodePoints, codePoints, unitsOf_toNat]
  | case3 u u2 s hpair ih =>
    have hclasses := Bool.and_eq_true_iff.mp hpair
    have hapart : ∀ v ∈ s.reverse.getLast?, ∀ v2 ∈ [u2, u].head?,
        ¬ (u16IsTrail v.toNat && u16IsLead v2.toNat) = true := by
      intro v _ v2 hv2
      obtain rfl := Option.some.inj hv2
      simp [not_lead_of_trail hclasses.2]
    have hlist : (u :: u2 :: s).reverse = s.reverse ++ [u2, u] := by simp
    rw [hlist, swapPairs_append _ _ hapart, ih, reverseCodePoints, reverseCodePoints, codePoints,
      if_pos hpair, List.reverse_cons, utf16_append, utf16_cons, unitsOf_pair hclasses.1 hclasses.2]
    simp [swapPairs, hclasses.1, hclasses.2]
  | case4 u u2 s hpair ih =>
    have hapart : ∀ v ∈ (u2 :: s).reverse.getLast?, ∀ v2 ∈ [u].head?,
        ¬ (u16IsTrail v.toNat && u16IsLead v2.toNat) = true := by
      intro v hv v2 hv2
      obtain rfl := Option.some.inj hv2
      rw [List.getLast?_reverse] at hv
      obtain rfl := Option.some.inj hv
      rw [Bool.and_comm]
      exact hpair
    rw [List.reverse_cons, swapPairs_append _ _ hapart, ih, reverseCodePoints, reverseCodePoints,
      codePoints, if_neg hpair, List.reverse_cons, utf16_append, utf16_cons, unitsOf_toNat]
    simp [swapPairs]

theorem length_swapPairs (s : List UInt16) : (swapPairs s).length = s.length := by
  induction s using swapPairs.induct with
  | case1 => rfl
  | case2 u => rfl
  | case3 u u2 s hpair ih => simp [swapPairs, hpair, ih]
  | case4 u u2 s hpair ih => simp [swapPairs, hpair, ih]

@[simp] theorem length_reverseCodePoints (s : List UInt16) :
    (reverseCodePoints s).length = s.length := by
  rw [← swapPairs_reverse, length_swapPairs, List.length_reverse]

theorem rangeReversed_of_le_one (s : List UInt16) (start : Nat) {length : Nat} (h : length ≤ 1) :
    rangeReversed s start length = s := by
  have hsame : reverseCodePoints ((s.drop start).take length) = (s.drop start).take length := by
    match hs : (s.drop start).take length with
    | [] => rfl
    | [u] => simp [reverseCodePoints, codePoints, unitsOf_toNat]
    | u :: v :: t =>
      have hlen := congrArg List.length hs
      simp at hlen
      omega
  rw [rangeReversed, hsame, List.append_assoc, ← List.drop_drop, List.take_append_drop,
    List.take_append_drop]

theorem reverseRange_eq (A s B : List UInt16) (h : 2 ≤ s.length) :
    reverseRange (A ++ s ++ B) A.length s.length = some (A ++ reverseCodePoints s ++ B) := by
  obtain ⟨left, has, middle, hrun, hmiddle, hsees⟩ := swapUnits_eq s.length A s B false rfl h
  rw [reverseRange, hrun]
  simp only [Option.bind_eq_bind, Option.bind_some, hmiddle, hsees, Bool.false_or]
  have hloop := swapSurrogates_eq s.reverse A B
  rw [List.length_reverse, swapPairs_reverse] at hloop
  cases hany : s.any fun u => u16IsLead u.toNat with
  | true => rw [if_pos rfl, hloop]
  | false =>
    have hreverse : (s.reverse.any fun u => u16IsLead u.toNat) = false := by
      rw [List.any_reverse, hany]
    rw [if_neg Bool.false_ne_true, ← swapPairs_reverse, swapPairs_of_no_lead hreverse]
    rfl

end UnicodeString

namespace Memory

section Model

variable (mem : Memory) (m : Machine)

/-- `cloneArrayIfNeeded()` for the object `i`, which copies the contents, and whether the string is
writable -/
def cloneContentsIfNeeded (i : Nat) : Option (Memory × Bool) := do
  let str ← mem.strings[i]?
  let newCapacity := str.getCapacity m
  if !str.isWritable then return (mem, false)
  if ← mem.needsClone m str newCapacity then
    let oldLength := str.length
    let oldArray :=
      if str.storage = .shortString then
        if newCapacity > m.usStackbufSize then .text (str.fBuffer.take oldLength)
        -- no need to copy from the stack buffer to itself
        else .null
      else str.getArrayStart i
    let mem ← mem.allocate m i newCapacity
    let newStr ← mem.strings[i]?
    -- do not copy more than what fits - it may be smaller than before
    let minLength := min oldLength (newStr.getCapacity m)
    let mem ←
      if oldArray ≠ .null then mem.usArrayCopy oldArray 0 (newStr.getArrayStart i) 0 minLength
      else some mem
    let mem ← mem.setLengthOf i minLength
    let (mem, bufferToDelete) ← mem.releaseOld str
    return (mem.deleteBuffer bufferToDelete, true)
  else return (mem, true)

/-- `doReverse(start, length)` for the object `i` -/
def doReverse (i : Nat) (start length : Int) : Option Memory := do
  if length ≤ 1 then return mem
  let (mem, writable) ← mem.cloneContentsIfNeeded m i
  if !writable then return mem
  let str ← mem.strings[i]?
  let (start, length) := UnicodeString.pinIndices str.length start length
  -- pinIndices() might have shrunk the length
  if length ≤ 1 then return mem
  let units ← mem.read (str.getArrayStart i)
  let units ← UnicodeString.reverseRange units start length
  mem.write units (str.getArrayStart i)

end Model

variable {m : Machine} {mem mem' : Memory} {i : Nat} {str : UnicodeString}

/-- A string whose units only it refers to. -/
structure Exclusive (m : Machine) (mem : Memory) (i : Nat) (str : UnicodeString) : Prop where
  getElem? : mem.strings[i]? = some str
  valid : Valid m mem
  owned : (str.getArrayStart i).Owned
  away : ∀ k str', k ≠ i → mem.strings[k]? = some str' → str'.getArrayStart k ≠ str.getArrayStart i

section Frame

variable {dst : Pointer} {D R : List UInt16}

theorem Frame.exists_string (h : Frame dst mem mem') {k : Nat} {str' : UnicodeString}
    (hk : mem'.strings[k]? = some str') :
    ∃ str0, mem.strings[k]? = some str0 ∧ str'.header = str0.header := by
  have hheader := h.headers k
  rw [hk, Option.map_some, eq_comm, Option.map_eq_some_iff] at hheader
  obtain ⟨str0, hstr0, heq⟩ := hheader
  exact ⟨str0, hstr0, heq.symm⟩

theorem Frame.exists_units (h : Frame dst mem mem') (hD : mem.read dst = some D)
    (hR : mem'.read dst = some R) (hlen : R.length = D.length) {q : Pointer} {units : List UInt16}
    (hq : mem.read q = some units) :
    ∃ units', mem'.read q = some units' ∧ units'.length = units.length := by
  by_cases heq : q = dst
  · subst heq
    obtain rfl := Option.some.inj (hD.symm.trans hq)
    exact ⟨R, hR, hlen⟩
  · exact ⟨units, (h.read q heq).trans hq, rfl⟩

theorem Valid.of_frame (hv : Valid m mem) (h : Frame dst mem mem') (hD : mem.read dst = some D)
    (hR : mem'.read dst = some R) (hlen : R.length = D.length) : Valid m mem' where
  buffers := by
    intro k units hk
    obtain ⟨str', hstr', rfl⟩ := Option.map_eq_some_iff.mp hk
    obtain ⟨str0, hstr0, -⟩ := h.exists_string hstr'
    obtain ⟨units', hunits', hlen'⟩ := h.exists_units hD hR hlen (read_stackBuffer hstr0)
    obtain rfl := Option.some.inj (hk.symm.trans hunits')
    rw [hlen']
    exact hv.buffers k _ (read_stackBuffer hstr0)
  arrays := by
    intro k str' a c hk hs
    obtain ⟨str0, hstr0, hheader⟩ := h.exists_string hk
    rw [UnicodeString.storage_of_header hheader] at hs
    obtain ⟨units, hunits, hlength⟩ := hv.arrays k str0 a c hstr0 hs
    obtain ⟨units', hunits', hlen'⟩ := h.exists_units hD hR hlen hunits
    exact ⟨units', hunits', hlen'.trans hlength⟩
  aliases := by
    intro k str' t c hk hs
    obtain ⟨str0, hstr0, hheader⟩ := h.exists_string hk
    rw [UnicodeString.storage_of_header hheader] at hs
    exact hv.aliases k str0 t c hstr0 hs
  lengths := by
    intro k str' hk
    obtain ⟨str0, hstr0, hheader⟩ := h.exists_string hk
    rw [UnicodeString.length_of_header hheader,
      UnicodeString.getCapacity_of_storage (UnicodeString.storage_of_header hheader)]
    exact hv.lengths k str0 hstr0
  counts := by
    intro a r ha
    have hcount := h.counts a
    rw [ha, Option.map_some, eq_comm, Option.map_eq_some_iff] at hcount
    obtain ⟨r0, hr0, heq⟩ := hcount
    have hstorage : ∀ k : Nat, mem'.strings[k]?.map UnicodeString.storage =
        mem.strings[k]?.map UnicodeString.storage := by
      intro k
      have hk := congrArg (Option.map UnicodeString.storage) (h.headers k)
      rw [Option.map_map, Option.map_map] at hk
      exact hk
    rw [← heq, hv.counts a r0 hr0, countP_congr_storage hstorage]

theorem Exclusive.write (h : Exclusive m mem i str) (hD : mem.read (str.getArrayStart i) = some D)
    (hlen : R.length = D.length) : ∃ mem', mem.write R (str.getArrayStart i) = some mem' ∧
      Valid m mem' ∧ mem'.contents i = some (R.take str.length) ∧
      ∀ k, k ≠ i → mem'.contents k = mem.contents k := by
  obtain ⟨mem', hwrite, hR, hframe⟩ := @write_frame mem _ h.owned D R hD
  have hv := h.valid.of_frame hframe hD hR hlen
  refine ⟨mem', hwrite, hv, ?_, fun k hk => ?_⟩
  · have hheader := hframe.headers i
    rw [h.getElem?, Option.map_some, Option.map_eq_some_iff] at hheader
    obtain ⟨str', hstr', hsame⟩ := hheader
    have hstart := UnicodeString.getArrayStart_of_storage (UnicodeString.storage_of_header hsame) i
    have hlength := UnicodeString.length_of_header hsame
    have hb : str.storage ≠ .bogus := by
      intro hs
      have howned := h.owned
      rw [UnicodeString.getArrayStart, hs] at howned
      exact howned
    obtain ⟨units, hunits, hcap⟩ := h.valid.exists_units h.getElem? hb
    obtain rfl := Option.some.inj (hD.symm.trans hunits)
    have hle := Nat.le_trans (h.valid.lengths i str h.getElem?) hcap
    rw [← hlength]
    exact contents_eq hstr' (by rw [hstart, hR]) (by rw [hlength, hlen]; exact hle)
  · exact contents_congr (hframe.headers k) fun str' hk' =>
      hframe.read _ (h.away k str' hk hk')

end Frame

section Copy

variable {capacity n : Nat} {mem0 memA mem1 : Memory} {str1 : UnicodeString} {del : Option Nat}

theorem exists_allocated (hv : Valid m mem) (hstr : mem.strings[i]? = some str) (capacity : Nat) :
    ∃ mem0 str1, mem.allocate m i capacity = some mem0 ∧ Allocated m mem i capacity mem0 str1 := by
  by_cases hle : capacity ≤ m.usStackbufSize
  · obtain ⟨mem0, str1, hallocate, halloc, -⟩ := @allocate_eq m mem i str hv hstr capacity
      (m.usStackbufSize + 1) (by omega) (by omega)
    rw [if_pos ⟨hle, by omega⟩] at hallocate
    refine ⟨mem0, str1, ?_, halloc⟩
    rw [← hallocate, allocate, allocate, hstr]
    simp only [Option.bind_eq_bind, Option.bind_some, if_pos hle, if_pos (Nat.le_refl _)]
  · obtain ⟨mem0, str1, hallocate, halloc, -⟩ := @allocate_eq m mem i str hv hstr capacity capacity
      (Nat.le_refl _) (by omega)
    rw [if_neg (fun h => hle h.1)] at hallocate
    exact ⟨mem0, str1, hallocate, halloc⟩

namespace Allocated

variable (h : Allocated m mem i capacity mem0 str1)

include h

theorem getElem?_self (hlt : i < mem.strings.length) : mem0.strings[i]? = some str1 := by
  rw [h.strings, List.getElem?_set_self hlt]

theorem le_getCapacity : capacity ≤ str1.getCapacity m := by
  rw [UnicodeString.getCapacity]
  rcases h.storage with ⟨hshort, hle⟩ | ⟨c, units, hlong, -, -, hle⟩
  · rw [hshort]
    exact hle
  · rw [hlong]
    exact hle

theorem owned : (str1.getArrayStart i).Owned := by
  rw [UnicodeString.getArrayStart]
  rcases h.storage with ⟨hshort, -⟩ | ⟨c, units, hlong, -⟩
  · rw [hshort]
    trivial
  · rw [hlong]
    trivial

theorem exists_units (hlt : i < mem.strings.length) :
    ∃ D, mem0.read (str1.getArrayStart i) = some D ∧ capacity ≤ D.length := by
  rw [UnicodeString.getArrayStart]
  rcases h.storage with ⟨hshort, hle⟩ | ⟨c, units, hlong, hread, hlen, hle⟩
  · rw [hshort]
    exact ⟨str1.fBuffer, read_stackBuffer (h.getElem?_self hlt), by rw [h.fBuffer]; exact hle⟩
  · rw [hlong]
    exact ⟨units, hread, by omega⟩

theorem write {D R : List UInt16} (hlt : i < mem.strings.length)
    (hD : mem0.read (str1.getArrayStart i) = some D) (hlen : R.length = D.length)
    (hwrite : mem0.write R (str1.getArrayStart i) = some memA) :
    ∃ str2, Allocated m mem i capacity memA str2 ∧ str2.header = str1.header := by
  rcases h.storage with ⟨hshort, hle⟩ | ⟨c, units, hlong, hread, hc, hle⟩
  · have hstart : str1.getArrayStart i = .stackBuffer i := by
      rw [UnicodeString.getArrayStart, hshort]
    rw [hstart, read_stackBuffer (h.getElem?_self hlt)] at hD
    obtain rfl := Option.some.inj hD
    rw [hstart, Memory.write, h.getElem?_self hlt] at hwrite
    obtain rfl := Option.some.inj hwrite
    exact ⟨{ str1 with fBuffer := R }, {
      strings := by
        dsimp only
        rw [h.strings, List.set_set]
      kept := h.kept
      new := h.new
      storage := .inl ⟨hshort, hle⟩
      length := h.length
      fBuffer := hlen.trans h.fBuffer }, rfl⟩
  have hstart : str1.getArrayStart i = .array mem.arrays.length := by
    rw [UnicodeString.getArrayStart, hlong]
  obtain ⟨r, hr, hunits⟩ := Option.map_eq_some_iff.mp hread
  rw [hstart, hread] at hD
  obtain rfl := Option.some.inj hD
  rw [hstart, Memory.write, hr] at hwrite
  obtain rfl := Option.some.inj hwrite
  have harray := @array_set mem0 mem.arrays.length (some { r with units := R }) _
    (getElem?_of_array hr)
  refine ⟨str1, {
    strings := h.strings
    kept := fun a r' ha => ?_
    new := fun a r' ha => ?_
    storage := .inr ⟨c, R, hlong, ?_, hlen.trans hc, hle⟩
    length := h.length
    fBuffer := h.fBuffer }, rfl⟩
  · rw [harray, if_neg (Nat.ne_of_lt (lt_of_array ha))]
    exact h.kept a r' ha
  · rw [harray] at ha
    split at ha
    case isTrue heq =>
      obtain rfl := Option.some.inj ha
      rcases h.new _ r hr with hold | ⟨-, hrefers, hone⟩
      · exact absurd (lt_of_array hold) (Nat.lt_irrefl _)
      · exact .inr ⟨heq, by rw [heq]; exact hrefers, hone⟩
    case isFalse => exact h.new a r' ha
  · rw [read, harray, if_pos rfl]
    rfl

theorem copy {src : Pointer} {S D : List UInt16} (hlt : i < mem.strings.length)
    (hS : mem0.read src = some S) (hD : mem0.read (str1.getArrayStart i) = some D)
    (hSn : n ≤ S.length) (hDn : n ≤ D.length) :
    ∃ memA str2 R, mem0.usArrayCopy src 0 (str1.getArrayStart i) 0 n = some memA ∧
      Allocated m mem i capacity memA str2 ∧ str2.header = str1.header ∧
      memA.read (str1.getArrayStart i) = some R ∧ R.length = D.length ∧ R.take n = S.take n := by
  have hcount : ((S.drop 0).take n).length = n := by
    rw [List.drop_zero, List.length_take, Nat.min_eq_left hSn]
  obtain ⟨memA, hcopy, hR, -⟩ := @usArrayCopy_frame mem0 _ src h.owned S D 0 0 n
    (fun _ => ⟨hS, by omega⟩) hD (by omega)
  have htake := @take_overwrite_end _ D ((S.drop 0).take n) 0 (by omega)
  rw [hcount, Nat.zero_add] at htake
  have hlen : (overwrite D 0 ((S.drop 0).take n)).length = D.length := length_overwrite (by omega)
  have hwritten : ∃ str2, Allocated m mem i capacity memA str2 ∧ str2.header = str1.header := by
    rw [usArrayCopy] at hcopy
    split at hcopy
    · rw [hS, hD] at hcopy
      simp only [Option.bind_eq_bind, Option.bind_some] at hcopy
      rw [if_pos ⟨by omega, by omega⟩] at hcopy
      exact h.write hlt hD hlen hcopy
    · obtain rfl := Option.some.inj hcopy
      exact ⟨str1, h, rfl⟩
  obtain ⟨str2, halloc, hheader⟩ := hwritten
  exact ⟨memA, str2, _, hcopy, halloc, hheader, hR, hlen, by simpa using htake⟩

end Allocated

theorem releaseOld_frame (h : memA.releaseOld str = some (mem1, del)) :
    mem1.strings = memA.strings ∧ ∀ q, mem1.read q = memA.read q := by
  have hr : ∀ a c, str.storage = .longString a c → ∃ r, memA.array a = some r := by
    intro a c hs
    rw [releaseOld, hs] at h
    obtain ⟨r, hr, -⟩ := Option.map_eq_some_iff.mp h
    exact ⟨r, hr⟩
  obtain ⟨mem', del', hrelease, hstrings, hread, -⟩ := releaseOld_eq hr
  rw [h, Option.some.injEq, Prod.mk.injEq] at hrelease
  rw [hrelease.1]
  exact ⟨hstrings, hread⟩

theorem releaseOld_setLengthOf {memS : Memory} (h : memA.releaseOld str = some (mem1, del))
    (hS : mem1.setLengthOf i n = some memS) :
    ∃ memB, memA.setLengthOf i n = some memB ∧ memB.releaseOld str = some (memS, del) := by
  rw [setLengthOf, (releaseOld_frame h).1, Option.map_eq_some_iff] at hS
  obtain ⟨str', hstr', rfl⟩ := hS
  refine ⟨memA.setString i (str'.setLength n), by rw [setLengthOf, hstr']; rfl, ?_⟩
  rw [releaseOld] at h ⊢
  split at h
  · next a c =>
    obtain ⟨r, hr, heq⟩ := Option.map_eq_some_iff.mp h
    rw [Prod.mk.injEq] at heq
    obtain ⟨rfl, rfl⟩ := heq
    rw [array] at hr ⊢
    rw [setString, hr]
    rfl
  · rw [Option.some.injEq, Prod.mk.injEq] at h
    obtain ⟨rfl, rfl⟩ := h
    rfl

end Copy

/-- The string has the same contents as before, and they are its own. -/
structure Cloned (m : Machine) (mem : Memory) (i : Nat) (old : List UInt16) (mem' : Memory)
    (str' : UnicodeString) : Prop extends Exclusive m mem' i str' where
  contents : mem'.contents i = some old
  others : ∀ k, k ≠ i → mem'.contents k = mem.contents k
  length : str'.length = old.length

theorem cloneContentsIfNeeded_eq (hv : Valid m mem) (hstr : mem.strings[i]? = some str)
    (hw : str.isWritable = true) {old : List UInt16} (hold : mem.contents i = some old) :
    ∃ mem' str', mem.cloneContentsIfNeeded m i = some (mem', true) ∧
      Cloned m mem i old mem' str' := by
  have hb := UnicodeString.isWritable_storage hw
  have hlt := (List.getElem?_eq_some_iff.mp hstr).1
  obtain ⟨S, hS, hScap⟩ := hv.exists_units hstr hb
  have hcap := hv.lengths i str hstr
  have hSle := Nat.le_trans hcap hScap
  obtain rfl := Option.some.inj ((contents_eq hstr hS hSle).symm.trans hold)
  have hlen : (S.take str.length).length = str.length := by
    rw [List.length_take, Nat.min_eq_left hSle]
  obtain ⟨memR, strR, _, needed, -, hneeds, hready, hclone⟩ :=
    @cloneArrayIfNeeded_eq m mem i str hv hstr hb
    (str.getCapacity m) (str.getCapacity m + m.usStackbufSize + 1) (by omega) (by omega)
  rw [cloneContentsIfNeeded, hstr]
  simp only [Option.bind_eq_bind, Option.bind_some, hw, Bool.not_true, Bool.false_eq_true, if_false,
    hneeds]
  cases needed with
  | false =>
    obtain ⟨rfl, rfl⟩ := hclone
    exact ⟨_, _, rfl, ⟨hstr, hv, hready.owned, hready.away⟩, hold, fun _ _ => rfl, hlen.symm⟩
  | true =>
    have hshort : str.storage ≠ .shortString := by
      rcases hclone.1 with h | h
      · exact h
      intro hs
      rw [UnicodeString.getCapacity, hs] at h
      exact Nat.lt_irrefl _ h
    have hstack : str.getArrayStart i ≠ .stackBuffer i := by
      rw [UnicodeString.getArrayStart]
      cases hs : str.storage with
      | shortString => exact absurd hs hshort
      | _ => exact fun h => by cases h
    have hnull : str.getArrayStart i ≠ .null := by
      rw [UnicodeString.getArrayStart]
      cases hs : str.storage with
      | bogus => exact absurd hs hb
      | _ => exact fun h => by cases h
    obtain ⟨mem0, str1, hallocate, halloc⟩ := exists_allocated hv hstr (str.getCapacity m)
    obtain ⟨D, hD, hDcap⟩ := halloc.exists_units hlt
    have hmin : min str.length (str1.getCapacity m) = str.length :=
      Nat.min_eq_left (Nat.le_trans hcap halloc.le_getCapacity)
    obtain ⟨memA, str2, R, hcopy, halloc2, hheader, hR, hlenR, htake⟩ := halloc.copy hlt
      (halloc.read_kept hstack hS) hD hSle (Nat.le_trans hcap hDcap)
    have hstart : str2.getArrayStart i = str1.getArrayStart i :=
      UnicodeString.getArrayStart_of_storage (UnicodeString.storage_of_header hheader) i
    obtain ⟨mem1, del, hrelease, hready, -⟩ := halloc2.ready hv hstr
    have hready : Ready m mem i str.length mem1 str2 del :=
      { hready with capacity := Nat.le_trans hcap hready.capacity }
    obtain ⟨hstrings, hreads⟩ := releaseOld_frame hrelease
    have hR1 : mem1.read (str2.getArrayStart i) = some R := by rw [hstart, hreads, hR]
    obtain ⟨mem4, hset, hreplaced⟩ := finish hv hready (.refl _ mem1) hR1 hR1 rfl
    obtain ⟨memB, hsetA, hreleaseB⟩ := releaseOld_setLengthOf hrelease hset
    have hmem4 : mem4 = mem1.setString i (str2.setLength str.length) := by
      rw [setLengthOf, hready.getElem?] at hset
      exact (Option.some.inj hset).symm
    have hstrings4 : (mem4.deleteBuffer del).strings =
        mem.strings.set i (str2.setLength str.length) := by
      rw [strings_deleteBuffer, hmem4, setString]
      rw [hready.strings, List.set_set]
    have hstart' : (str2.setLength str.length).getArrayStart i = str2.getArrayStart i :=
      UnicodeString.getArrayStart_of_storage (UnicodeString.storage_setLength _) i
    refine ⟨mem4.deleteBuffer del, str2.setLength str.length, ?_, ⟨?_, hreplaced.valid, ?_, ?_⟩, ?_,
      hreplaced.others, ?_⟩
    · rw [if_pos rfl, if_neg hshort, hallocate, Option.bind_some, halloc.getElem?_self hlt,
        Option.bind_some, hmin, if_pos hnull, hcopy, Option.bind_some, hsetA, Option.bind_some,
        hreleaseB]
      rfl
    · rw [hstrings4, List.getElem?_set_self hlt]
    · rw [hstart']
      exact hready.owned
    · intro k str' hk hstr'
      rw [hstrings4, List.getElem?_set_ne (Ne.symm hk)] at hstr'
      rw [hstart']
      exact hready.away k str' hk hstr'
    · rw [hreplaced.contents, htake]
    · rw [UnicodeString.length_setLength, hlen]

/-- The code points in the range change to the reverse order, and nothing else changes. A string
that is not writable stays. -/
theorem doReverse_eq_rangeReversed (hv : Valid m mem) {old : List UInt16}
    (hstr : mem.strings[i]? = some str) (hold : mem.contents i = some old) (start length : Int) :
    ∃ mem', mem.doReverse m i start length = some mem' ∧ Valid m mem' ∧
      mem'.contents i = some (if str.isWritable then
        UnicodeString.rangeReversed old (UnicodeString.pinIndices old.length start length).1
          (UnicodeString.pinIndices old.length start length).2 else old) ∧
      ∀ k, k ≠ i → mem'.contents k = mem.contents k := by
  have hpinned := pinIndices_le old.length start length
  rw [doReverse]
  by_cases hone : length ≤ 1
  · refine ⟨mem, by rw [if_pos hone]; rfl, hv, ?_, fun _ _ => rfl⟩
    have hle : (UnicodeString.pinIndices old.length start length).2 ≤ 1 := by
      rw [UnicodeString.pinIndices]
      split
      · omega
      · split <;> omega
    rw [UnicodeString.rangeReversed_of_le_one _ _ hle, ite_self]
    exact hold
  rw [if_neg hone]
  cases hw : str.isWritable with
  | false =>
    refine ⟨mem, ?_, hv, hold, fun _ _ => rfl⟩
    simp [cloneContentsIfNeeded, hstr, hw]
  | true =>
    obtain ⟨mem1, str1, hclone, hcloned⟩ := cloneContentsIfNeeded_eq hv hstr hw hold
    obtain ⟨D, hD, hle, hcontents⟩ : ∃ D, mem1.read (str1.getArrayStart i) = some D ∧
        str1.length ≤ D.length ∧ D.take str1.length = old := by
      have hcontents := hcloned.contents
      rw [contents, hcloned.getElem?] at hcontents
      simp only [Option.bind_eq_bind, Option.bind_some] at hcontents
      obtain ⟨D, hD, htaken⟩ := Option.bind_eq_some_iff.mp hcontents
      split at htaken
      · next hle => exact ⟨D, hD, hle, Option.some.inj htaken⟩
      · cases htaken
    rw [hclone]
    simp only [Option.bind_eq_bind, Option.bind_some, hcloned.getElem?, hcloned.length,
      Bool.not_true, Bool.false_eq_true, if_false, if_true]
    rw [hcloned.length] at hle hcontents
    generalize UnicodeString.pinIndices old.length start length = range at hpinned ⊢
    obtain ⟨st, ln⟩ := range
    by_cases hshort : ln ≤ 1
    · rw [if_pos hshort, UnicodeString.rangeReversed_of_le_one _ _ hshort]
      exact ⟨mem1, rfl, hcloned.valid, hcloned.contents, hcloned.others⟩
    have hrange := UnicodeString.reverseRange_eq (D.take st) ((D.drop st).take ln)
      (D.drop (st + ln)) (by simp; omega)
    have hparts : D.take st ++ (D.drop st).take ln ++ D.drop (st + ln) = D := by
      rw [List.append_assoc, ← List.drop_drop, List.take_append_drop, List.take_append_drop]
    have hst : (D.take st).length = st := List.length_take_of_le (by omega)
    have hln : ((D.drop st).take ln).length = ln :=
      List.length_take_of_le (by rw [List.length_drop]; omega)
    rw [hparts, hst, hln] at hrange
    have hlen : (D.take st ++ UnicodeString.reverseCodePoints ((D.drop st).take ln) ++
        D.drop (st + ln)).length = D.length := by
      simp [hst, hln]
      omega
    obtain ⟨mem2, hwrite, hv2, hcontents2, hothers2⟩ := hcloned.toExclusive.write hD hlen
    rw [if_neg hshort, hD, Option.bind_some, hrange, Option.bind_some]
    refine ⟨mem2, hwrite, hv2, ?_, fun k hk => (hothers2 k hk).trans (hcloned.others k hk)⟩
    have hfront : old.take st = D.take st := by
      rw [← hcontents, List.take_take, Nat.min_eq_left (by omega)]
    have hmiddle : (old.drop st).take ln = (D.drop st).take ln := by
      rw [← hcontents, List.drop_take, List.take_take, Nat.min_eq_left (by omega)]
    have hback : old.drop (st + ln) = (D.drop (st + ln)).take (old.length - (st + ln)) := by
      rw [← List.drop_take, hcontents]
    have hreversed : (D.take st ++ UnicodeString.reverseCodePoints
        ((D.drop st).take ln)).length = st + ln := by simp [hst, hln]
    rw [hcontents2, hcloned.length, UnicodeString.rangeReversed, hfront, hmiddle, hback,
      List.take_append, hreversed, List.take_of_length_le (by omega)]

/-- A pair behind a letter. -/
theorem doReverse_eq_rangeReversed_pair : ∃ mem', doReverse ⟨[⟨.shortString, false, 3, 0,
      [0x61, 0xd83d, 0xde00, 0, 0, 0, 0, 0, 0, 0, 0, 0, 0, 0, 0]⟩], []⟩ machine64 0 0 3 =
      some mem' ∧
      mem'.contents 0 = some [0xd83d, 0xde00, 0x61] := by
  obtain ⟨mem', hmem', -, hcontents, -⟩ := @doReverse_eq_rangeReversed machine64
    ⟨[⟨.shortString, false, 3, 0, [0x61, 0xd83d, 0xde00, 0, 0, 0, 0, 0, 0, 0, 0, 0, 0, 0, 0]⟩],
      []⟩ 0 _
    (valid_of_short (by decide) rfl) [0x61, 0xd83d, 0xde00] rfl rfl 0 3
  exact ⟨mem', hmem', hcontents⟩

end Memory

end Icu
