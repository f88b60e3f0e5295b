import Icu.UHash.Find

/-! # The invariant of `UHashtable`

Every live element can be reached on its path, there is at most one for each class of keys, and the
table is never full. Storing into a free slot and removing an element keep this.
-/

namespace Icu.UHash

open Lib.OpenAddressing

variable {T : Type}

/-- The comparator is an equivalence, and the hash function does not tell equal keys apart. -/
structure KeyFunctions.Consistent (f : KeyFunctions T) : Prop where
  refl : ∀ a, f.keyComparator a a = true
  symm : ∀ {a b}, f.keyComparator a b = true → f.keyComparator b a = true
  trans : ∀ {a b c}, f.keyComparator a b = true → f.keyComparator b c = true →
    f.keyComparator a c = true
  hash : ∀ {a b}, f.keyComparator a b = true → f.keyHasher a = f.keyHasher b

namespace UHashtable

variable {f : KeyFunctions T} {hash : UHashtable T}

def LiveAt (f : KeyFunctions T) (hash : UHashtable T) (i : Nat) : Prop :=
  isLive (hash.element f i) = true

instance (i : Nat) : Decidable (hash.LiveAt f i) := inferInstanceAs (Decidable (_ = true))

def Marked (hash : UHashtable T) : Prop :=
  ∃ policy, hash.lowWaterRatio = lowWaterRatioOf policy ∧
    hash.lowWaterMark = waterMark hash.length (lowWaterRatioOf policy) ∧
    hash.highWaterRatio = highWaterRatioOf policy ∧
    hash.highWaterMark = waterMark hash.length (highWaterRatioOf policy)

structure Stored (f : KeyFunctions T) (hash : UHashtable T) : Prop where
  elements : hash.elements.length = hash.length
  count : hash.count = hash.elements.countP isLive
  count_lt : hash.count < hash.length
  free : ∀ i, ¬ hash.LiveAt f i → (hash.element f i).value = f.emptytok
  hashed : ∀ i, hash.LiveAt f i →
    (hash.element f i).hashcode = masked (f.keyHasher (hash.element f i).key)
  reached : ∀ i, hash.LiveAt f i →
    Reached (hash.slot f) (path hash.length (masked (f.keyHasher (hash.element f i).key)))
      hash.length i
  unique : ∀ i j, hash.LiveAt f i → hash.LiveAt f j →
    f.keyComparator (hash.element f i).key (hash.element f j).key = true → i = j

structure Valid (f : KeyFunctions T) (hash : UHashtable T) : Prop where
  primeIndex : hash.primeIndex < 27
  length : hash.length = primes.getD hash.primeIndex 0
  marked : hash.Marked
  stored : hash.Stored f

theorem Valid.prime (h : hash.Valid f) : hash.length.Prime := by
  rw [h.length]
  exact (primes_prime h.primeIndex).1

theorem Valid.length_le (h : hash.Valid f) : hash.length ≤ 0x40000000 := by
  rw [h.length]
  exact (primes_prime h.primeIndex).2

theorem not_liveAt_emptyElement : isLive (emptyElement f) = false := by
  simp [isLive, emptyElement, isEmptyOrDeleted, hashEmpty, hashDeleted]

theorem LiveAt.lt {i : Nat} (h : hash.LiveAt f i) : i < hash.elements.length := by
  by_contra hge
  have hdefault : hash.element f i = emptyElement f := by
    rw [element, List.getD_eq_getElem?_getD, List.getElem?_eq_none (by omega), Option.getD_none]
  rw [LiveAt, hdefault, not_liveAt_emptyElement] at h
  cases h

theorem element_eq_getElem {i : Nat} (hi : i < hash.elements.length) :
    hash.element f i = hash.elements[i] := by
  rw [element, List.getD_eq_getElem?_getD, List.getElem?_eq_getElem hi, Option.getD_some]

theorem slot_live {i : Nat} (h : hash.LiveAt f i) : hash.slot f i = .live (hash.element f i) :=
  slotOf_live_iff.mpr ⟨h, rfl⟩

theorem liveAt_of_slot {i : Nat} {a : UHashElement T} (h : hash.slot f i = .live a) :
    hash.LiveAt f i ∧ hash.element f i = a := slotOf_live_iff.mp h

/-- A free slot that can be reached, and no key like this one in the table. -/
structure FreeFor (f : KeyFunctions T) (hash : UHashtable T) (key : T) (i : Nat) : Prop where
  free : ¬ hash.LiveAt f i
  lt : i < hash.length
  reached : Reached (hash.slot f) (path hash.length (masked (f.keyHasher key))) hash.length i
  absent : ∀ j, hash.LiveAt f j → f.keyComparator key (hash.element f j).key = false

theorem Stored.findElement (hf : f.Consistent) (h : hash.Stored f) (hprime : hash.length.Prime)
    (hle : hash.length ≤ 0x40000000) (key : T) {hashcode : Int}
    (hcode : masked hashcode = masked (f.keyHasher key)) :
    ∃ i, hash.findElement f key hashcode = some i ∧
      ((hash.LiveAt f i ∧ f.keyComparator key (hash.element f i).key = true) ∨
      hash.FreeFor f key i) := by
  rw [findElement_eq_search hprime hle, hcode]
  have hwanted : ∀ j, hash.LiveAt f j →
    (wanted f key (masked (f.keyHasher key)) (hash.element f j) = true ↔
      f.keyComparator key (hash.element f j).key = true) := by
    intro j hj
    rw [wanted, Bool.and_eq_true, decide_eq_true_eq, h.hashed j hj]
    constructor
    · exact fun hboth => hboth.2
    intro hcomp
    rw [hf.hash hcomp]
    exact ⟨rfl, hcomp⟩
  by_cases hfound : ∃ i, hash.LiveAt f i ∧ f.keyComparator key (hash.element f i).key = true
  · obtain ⟨i, hi, hcomp⟩ := hfound
    obtain ⟨i₀, hlt, hpath, hbefore⟩ := h.reached i hi
    rw [← hf.hash hcomp] at hpath hbefore
    refine ⟨i, ?_, Or.inl ⟨hi, hcomp⟩⟩
    have hslot : hash.slot f (path hash.length (masked (f.keyHasher key)) i₀) =
      .live (hash.element f i) := by
      rw [hpath]
      exact slot_live hi
    have hsearch := search_of_found hslot ((hwanted i hi).mpr hcomp) ?_ hbefore hash.length 0 none
      (Nat.zero_le _) (by omega)
    · rw [hsearch, hpath]
    -- a match before it would be the same element, and the path does not visit a slot twice
    intro j hj b hb
    obtain ⟨hlive, hb'⟩ := liveAt_of_slot hb
    by_contra hne
    have hmatch := (hwanted _ hlive).mp (by rw [hb']; exact Bool.of_not_eq_false hne)
    have hsame := h.unique _ _ hlive hi (hf.trans (hf.symm hmatch) hcomp)
    have htwo := hprime.two_le
    have hmod := Nat.mod_lt (masked (f.keyHasher key)) (show 0 < hash.length - 1 by omega)
    have hinj := @probe_injective hash.length _ _ hprime (Nat.succ_pos _) (by omega) j i₀
      (by omega) hlt
      (hsame.trans hpath.symm)
    omega
  have habsent : ∀ j, hash.LiveAt f j → f.keyComparator key (hash.element f j).key = false := by
    intro j hj
    by_contra hne
    exact hfound ⟨j, hj, Bool.of_not_eq_false hne⟩
  have hnone : ∀ j < hash.length, ∀ b,
      hash.slot f (path hash.length (masked (f.keyHasher key)) j) = .live b →
        wanted f key (masked (f.keyHasher key)) b = false := by
    intro j _ b hb
    obtain ⟨hlive, hb'⟩ := liveAt_of_slot hb
    by_contra hne
    have hmatch := (hwanted _ hlive).mp (by rw [hb']; exact Bool.of_not_eq_false hne)
    rw [habsent _ hlive] at hmatch
    cases hmatch
  -- the table is not full
  have hroom : ∃ k < hash.length, ¬ hash.LiveAt f k := by
    have hcount : hash.elements.countP isLive < hash.elements.length := by
      rw [← h.count, h.elements]
      exact h.count_lt
    obtain ⟨e, he, hdead⟩ := List.countP_lt_length_iff.mp hcount
    obtain ⟨k, hk, heq⟩ := List.mem_iff_getElem.mp he
    refine ⟨k, by rw [← h.elements]; exact hk, ?_⟩
    rw [LiveAt, element_eq_getElem hk, heq, hdead]
    exact Bool.false_ne_true
  obtain ⟨k, hk, hdead⟩ := hroom
  have htwo := hprime.two_le
  have hmod := Nat.mod_lt (masked (f.keyHasher key)) (show 0 < hash.length - 1 by omega)
  obtain ⟨i₀, hi₀, hpath⟩ := @probe_surjective hash.length
    ((masked (f.keyHasher key) ^^^ 0x4000000) % hash.length)
    (masked (f.keyHasher key) % (hash.length - 1) + 1) hprime (Nat.succ_pos _) (by omega) k hk
  obtain ⟨i, hsearch, hfree, hreached⟩ := search_of_absent hnone hash.length 0 none (Nat.zero_add _)
    (fun j hj => absurd hj (Nat.not_lt_zero j)) nofun (fun _ => ⟨i₀, Nat.zero_le _, hi₀, fun a ha =>
      hdead (by
      have hslot := liveAt_of_slot ha
      rw [← hpath]
      exact hslot.1)⟩)
  refine ⟨i, hsearch, Or.inr ⟨fun hlive => hfree _ (slot_live hlive), ?_, hreached, habsent⟩⟩
  obtain ⟨j, -, hj, -⟩ := hreached
  rw [← hj]
  exact probe_lt hprime.pos j

section Set

variable {i : Nat} {e : UHashElement T} {c : Nat} {j : Nat}

abbrev withElement (hash : UHashtable T) (i : Nat) (e : UHashElement T) (c : Nat) : UHashtable T :=
  { hash with elements := hash.elements.set i e, count := c }

section

variable (hi : i < hash.elements.length)
include hi

theorem element_withElement (j : Nat) :
    (hash.withElement i e c).element f j = if j = i then e else hash.element f j := by
  unfold element
  rw [List.getD_eq_getElem?_getD, List.getElem?_set]
  by_cases hji : j = i
  · rw [if_pos hji.symm, if_pos hi, if_pos hji, Option.getD_some]
  · rw [if_neg (Ne.symm hji), if_neg hji, List.getD_eq_getElem?_getD]

theorem element_withElement_self : (hash.withElement i e c).element f i = e := by
  rw [element_withElement hi, if_pos rfl]

theorem element_withElement_ne (hj : j ≠ i) :
    (hash.withElement i e c).element f j = hash.element f j := by
  rw [element_withElement hi, if_neg hj]

theorem liveAt_withElement :
    (hash.withElement i e c).LiveAt f j ↔ (j = i ∧ isLive e = true) ∨
    (j ≠ i ∧ hash.LiveAt f j) := by
  unfold LiveAt
  by_cases hji : j = i
  · rw [hji, element_withElement_self hi]
    simp
  · rw [element_withElement_ne hi hji]
    simp [hji]

theorem reached_withElement (he : slotOf e ≠ .empty)
    {p : Nat → Nat} {n k : Nat} (h : Reached (hash.slot f) p n k) :
    Reached ((hash.withElement i e c).slot f) p n k := by
  refine h.mono fun j hj => ?_
  unfold slot at hj ⊢
  by_cases hji : j = i
  · rw [hji, element_withElement_self hi] at hj
    exact absurd hj he
  · rwa [element_withElement_ne hi hji] at hj

theorem countP_withElement :
    (hash.elements.set i e).countP isLive + (if hash.LiveAt f i then 1 else 0) =
      hash.elements.countP isLive + (if isLive e = true then 1 else 0) := by
  have hget : hash.element f i = hash.elements[i] := element_eq_getElem hi
  rw [List.countP_set hi]
  by_cases hlive : hash.LiveAt f i
  · have hlive' : isLive hash.elements[i] = true := by
      rw [← hget]
      exact hlive
    have hpos : 0 < hash.elements.countP isLive :=
      List.countP_pos_iff.mpr ⟨_, List.getElem_mem hi, hlive'⟩
    rw [if_pos hlive, if_pos hlive']
    omega
  · have hlive' : ¬ isLive hash.elements[i] = true := by
      rw [← hget]
      exact hlive
    rw [if_neg hlive, if_neg hlive']
    omega

end

theorem Stored.set_live (hf : f.Consistent) (h : hash.Stored f) (hi : i < hash.length)
    (hcode : e.hashcode = masked (f.keyHasher e.key))
    (hreached : Reached (hash.slot f) (path hash.length (masked (f.keyHasher e.key))) hash.length i)
    (habsent : ∀ j, j ≠ i → hash.LiveAt f j → f.keyComparator e.key (hash.element f j).key = false)
    (hc : c = hash.count + if hash.LiveAt f i then 0 else 1) (hlt : c < hash.length) :
    (hash.withElement i e c).Stored f := by
  have hi' : i < hash.elements.length := by
    rw [h.elements]
    exact hi
  have hlive : isLive e = true := by
    rw [isLive, isEmptyOrDeleted, hcode]
    simp
  have hslot : slotOf e ≠ .empty := by
    rw [slotOf, if_pos hlive]
    rintro ⟨⟩
  have hcount := countP_withElement (f := f) (e := e) hi'
  refine ⟨?_, ?_, hlt, ?_, ?_, ?_, ?_⟩
  · rw [List.length_set]
    exact h.elements
  · change c = (hash.elements.set i e).countP isLive
    rw [hc, h.count]
    rw [if_pos hlive] at hcount
    split at hcount
    · next hold =>
      rw [if_pos hold]
      omega
    · next hold =>
      rw [if_neg hold]
      omega
  · intro j hj
    have hji : j ≠ i := fun heq => hj ((liveAt_withElement hi').mpr (Or.inl ⟨heq, hlive⟩))
    rw [element_withElement_ne hi' hji]
    exact h.free j fun hold => hj ((liveAt_withElement hi').mpr (Or.inr ⟨hji, hold⟩))
  · intro j hj
    rcases (liveAt_withElement hi').mp hj with ⟨heq, -⟩ | ⟨hji, hold⟩
    · rw [heq, element_withElement_self hi']
      exact hcode
    · rw [element_withElement_ne hi' hji]
      exact h.hashed j hold
  · intro j hj
    rcases (liveAt_withElement hi').mp hj with ⟨heq, -⟩ | ⟨hji, hold⟩
    · rw [heq, element_withElement_self hi']
      exact reached_withElement hi' hslot hreached
    · rw [element_withElement_ne hi' hji]
      exact reached_withElement hi' hslot (h.reached j hold)
  · intro j k hj hk hcomp
    rcases (liveAt_withElement hi').mp hj with ⟨hji, -⟩ | ⟨hji, holdj⟩
    · rcases (liveAt_withElement hi').mp hk with ⟨hki, -⟩ | ⟨hki, holdk⟩
      · exact hji.trans hki.symm
      rw [hji, element_withElement_self hi', element_withElement_ne hi' hki,
        habsent k hki holdk] at hcomp
      cases hcomp
    rcases (liveAt_withElement hi').mp hk with ⟨hki, -⟩ | ⟨hki, holdk⟩
    · rw [hki, element_withElement_self hi', element_withElement_ne hi' hji] at hcomp
      have hback := hf.symm hcomp
      rw [habsent j hji holdj] at hback
      cases hback
    · rw [element_withElement_ne hi' hji, element_withElement_ne hi' hki] at hcomp
      exact h.unique j k holdj holdk hcomp

theorem Stored.set_deleted (h : hash.Stored f) (hi : hash.LiveAt f i) :
    (hash.withElement i ⟨hashDeleted, f.emptytok, f.emptytok⟩ (hash.count - 1)).Stored f := by
  have hi' : i < hash.elements.length := hi.lt
  have hdead : isLive (⟨hashDeleted, f.emptytok, f.emptytok⟩ : UHashElement T) = false := by
    simp [isLive, isEmptyOrDeleted, hashDeleted]
  have hslot : slotOf (⟨hashDeleted, f.emptytok, f.emptytok⟩ : UHashElement T) ≠ .empty := by
    rw [slotOf, hdead, if_neg Bool.false_ne_true, if_neg (by decide : ¬ hashDeleted = hashEmpty)]
    rintro ⟨⟩
  have hkeeps : ∀ {j}, (hash.withElement i ⟨hashDeleted, f.emptytok, f.emptytok⟩
    (hash.count - 1)).LiveAt f j →
      j ≠ i ∧ hash.LiveAt f j := by
    intro j hj
    rcases (liveAt_withElement hi').mp hj with ⟨-, hbad⟩ | hold
    · rw [hdead] at hbad
      cases hbad
    · exact hold
  have hcount := countP_withElement (f := f) (e := ⟨hashDeleted, f.emptytok, f.emptytok⟩) hi'
  rw [if_pos hi, hdead, if_neg Bool.false_ne_true] at hcount
  refine ⟨?_, ?_, ?_, ?_, ?_, ?_, ?_⟩
  · rw [List.length_set]
    exact h.elements
  · change hash.count - 1 = (hash.elements.set i _).countP isLive
    have := h.count
    omega
  · have := h.count_lt
    change hash.count - 1 < hash.length
    omega
  · intro j hj
    by_cases hji : j = i
    · rw [hji, element_withElement_self hi']
    rw [element_withElement_ne hi' hji]
    exact h.free j fun hold => hj ((liveAt_withElement hi').mpr (Or.inr ⟨hji, hold⟩))
  · intro j hj
    obtain ⟨hji, hold⟩ := hkeeps hj
    rw [element_withElement_ne hi' hji]
    exact h.hashed j hold
  · intro j hj
    obtain ⟨hji, hold⟩ := hkeeps hj
    rw [element_withElement_ne hi' hji]
    exact reached_withElement hi' hslot (h.reached j hold)
  · intro j k hj hk hcomp
    obtain ⟨hji, holdj⟩ := hkeeps hj
    obtain ⟨hki, holdk⟩ := hkeeps hk
    rw [element_withElement_ne hi' hji, element_withElement_ne hi' hki] at hcomp
    exact h.unique j k holdj holdk hcomp

end Set

end UHashtable

end Icu.UHash
