import Icu.UHash.Valid

/-! # What the operations of `UHashtable` do to the map

A table stands for the map of its live elements. Each operation keeps the invariant and updates the
map, and a rehash keeps the map.
-/

namespace Icu.UHash

open Lib.OpenAddressing

variable {T : Type}

def update (f : KeyFunctions T) (m : T → Option T) (key value : T) : T → Option T :=
  fun k => if f.keyComparator k key then some value else m k

def erase (f : KeyFunctions T) (m : T → Option T) (key : T) : T → Option T :=
  fun k => if f.keyComparator k key then none else m k

namespace UHashtable

variable {f : KeyFunctions T} {hash : UHashtable T} {m : T → Option T} {k key : T} {i c : Nat}
  {e : UHashElement T} {pos : Int}

def Holds (f : KeyFunctions T) (hash : UHashtable T) (e : UHashElement T) : Prop :=
  ∃ i, hash.LiveAt f i ∧ hash.element f i = e

def Represents (f : KeyFunctions T) (hash : UHashtable T) (m : T → Option T) : Prop :=
  ∀ k v, m k = some v ↔ ∃ e, hash.Holds f e ∧ f.keyComparator k e.key = true ∧ e.value = v

theorem Represents.congr {hash' : UHashtable T} (h : hash.Represents f m)
    (hsame : ∀ e, hash'.Holds f e ↔ hash.Holds f e) : hash'.Represents f m := by
  intro k v
  simp only [h k v, hsame]

theorem Represents.eq_none (h : hash.Represents f m)
    (habsent : ∀ i, hash.LiveAt f i → f.keyComparator k (hash.element f i).key = false) :
    m k = none := by
  cases hm : m k with
  | none => rfl
  | some v =>
    obtain ⟨e, ⟨i, hlive, rfl⟩, hcomp, -⟩ := (h k v).mp hm
    rw [habsent i hlive] at hcomp
    cases hcomp

theorem Represents.eq_some (h : hash.Represents f m)
    (hlive : hash.LiveAt f i) (hcomp : f.keyComparator k (hash.element f i).key = true) :
    m k = some (hash.element f i).value := (h k _).mpr ⟨_, ⟨i, hlive, rfl⟩, hcomp, rfl⟩

theorem holds_withElement (hi : i < hash.elements.length)
    (he : isLive e = true) (a : UHashElement T) : (hash.withElement i e c).Holds f a ↔
      a = e ∨ ∃ j, j ≠ i ∧ hash.LiveAt f j ∧ hash.element f j = a := by
  constructor
  · rintro ⟨j, hj, rfl⟩
    rcases (liveAt_withElement hi).mp hj with ⟨heq, -⟩ | ⟨hji, hold⟩
    · rw [heq]
      exact Or.inl (element_withElement_self hi)
    · exact Or.inr ⟨j, hji, hold, (element_withElement_ne hi hji).symm⟩
  · rintro (rfl | ⟨j, hji, hold, rfl⟩)
    · exact ⟨i, (liveAt_withElement hi).mpr (Or.inl ⟨rfl, he⟩), element_withElement_self hi⟩
    · exact ⟨j, (liveAt_withElement hi).mpr (Or.inr ⟨hji, hold⟩), element_withElement_ne hi hji⟩

theorem holds_withElement_free (hi : i < hash.elements.length) (he : isLive e = true)
    (hfree : ¬ hash.LiveAt f i) (a : UHashElement T) :
    (hash.withElement i e c).Holds f a ↔ a = e ∨ hash.Holds f a := by
  rw [holds_withElement hi he]
  apply or_congr_right
  constructor
  · rintro ⟨j, -, hj⟩
    exact ⟨j, hj⟩
  rintro ⟨j, hj, heq⟩
  refine ⟨j, fun hji => ?_, hj, heq⟩
  rw [hji] at hj
  exact hfree hj

theorem Represents.set_live (hf : f.Consistent)
    (h : hash.Represents f m) (hi : i < hash.elements.length) (he : isLive e = true)
    (hown : hash.LiveAt f i → f.keyComparator e.key (hash.element f i).key = true)
    (habsent : ∀ j, j ≠ i → hash.LiveAt f j → f.keyComparator e.key (hash.element f j).key =
    false) :
    (hash.withElement i e c).Represents f (update f m e.key e.value) := by
  intro k v
  unfold update
  by_cases hk : f.keyComparator k e.key = true
  · rw [if_pos hk, Option.some.injEq]
    constructor
    · intro hv
      exact ⟨e, (holds_withElement hi he e).mpr (Or.inl rfl), hk, hv⟩
    rintro ⟨a, ha, hcomp, hv⟩
    rcases (holds_withElement hi he a).mp ha with heq | ⟨j, hji, hold, rfl⟩
    · rw [← heq]
      exact hv
    have hother := habsent j hji hold
    rw [hf.trans (hf.symm hk) hcomp] at hother
    cases hother
  rw [if_neg hk, h k v]
  constructor
  · rintro ⟨a, ⟨j, hold, rfl⟩, hcomp, hv⟩
    refine ⟨_, (holds_withElement hi he _).mpr (Or.inr ⟨j, ?_, hold, rfl⟩), hcomp, hv⟩
    intro hji
    rw [hji] at hold hcomp
    exact hk (hf.trans hcomp (hf.symm (hown hold)))
  · rintro ⟨a, ha, hcomp, hv⟩
    rcases (holds_withElement hi he a).mp ha with heq | ⟨j, -, hold, rfl⟩
    · rw [heq] at hcomp
      exact absurd hcomp hk
    · exact ⟨_, ⟨j, hold, rfl⟩, hcomp, hv⟩

theorem Represents.set_deleted (hf : f.Consistent) (hs : hash.Stored f)
    (h : hash.Represents f m) (hi : hash.LiveAt f i) :
    (hash.withElement i ⟨hashDeleted, f.emptytok, f.emptytok⟩ c).Represents f
      (erase f m (hash.element f i).key) := by
  have hdead : isLive (⟨hashDeleted, f.emptytok, f.emptytok⟩ : UHashElement T) = false := by
    simp [isLive, isEmptyOrDeleted, hashDeleted]
  have hlive : ∀ {j}, (hash.withElement i ⟨hashDeleted, f.emptytok, f.emptytok⟩ c).LiveAt f j ↔
      j ≠ i ∧ hash.LiveAt f j := by
    intro j
    rw [liveAt_withElement hi.lt, hdead]
    simp
  intro k v
  unfold erase
  by_cases hk : f.keyComparator k (hash.element f i).key = true
  · rw [if_pos hk]
    constructor
    · rintro ⟨⟩
    rintro ⟨a, ⟨j, hj, rfl⟩, hcomp, -⟩
    obtain ⟨hji, hold⟩ := hlive.mp hj
    rw [element_withElement_ne hi.lt hji] at hcomp
    exact absurd (hs.unique j i hold hi (hf.trans (hf.symm hcomp) hk)) hji
  rw [if_neg hk, h k v]
  constructor
  · rintro ⟨a, ⟨j, hold, rfl⟩, hcomp, hv⟩
    have hji : j ≠ i := by
      intro heq
      rw [heq] at hcomp
      exact hk hcomp
    exact ⟨_, ⟨j, hlive.mpr ⟨hji, hold⟩, element_withElement_ne hi.lt hji⟩, hcomp, hv⟩
  · rintro ⟨a, ⟨j, hj, rfl⟩, hcomp, hv⟩
    obtain ⟨hji, hold⟩ := hlive.mp hj
    rw [element_withElement_ne hi.lt hji] at hcomp hv
    exact ⟨_, ⟨j, hold, rfl⟩, hcomp, hv⟩

/-! ## Rehashing -/

structure SameShape (hash hash' : UHashtable T) : Prop where
  length : hash'.length = hash.length
  primeIndex : hash'.primeIndex = hash.primeIndex
  lowWaterMark : hash'.lowWaterMark = hash.lowWaterMark
  highWaterMark : hash'.highWaterMark = hash.highWaterMark
  lowWaterRatio : hash'.lowWaterRatio = hash.lowWaterRatio
  highWaterRatio : hash'.highWaterRatio = hash.highWaterRatio

theorem SameShape.refl (hash : UHashtable T) : SameShape hash hash := ⟨rfl, rfl, rfl, rfl, rfl, rfl⟩

theorem foldlM_rehashElement (hf : f.Consistent) :
    ∀ (es : List (UHashElement T)) {new : UHashtable T},
    new.Stored f → new.length.Prime → new.length ≤ 0x40000000 →
    (∀ e ∈ es, isLive e = true → e.hashcode = masked (f.keyHasher e.key)) →
    es.Pairwise (fun a b => isLive a = true → isLive b = true → f.keyComparator a.key b.key =
    false) →
    (∀ e ∈ es, isLive e = true → ∀ i, new.LiveAt f i → f.keyComparator e.key (new.element f i).key =
    false) →
    new.count + es.countP isLive < new.length →
    ∃ new', es.foldlM (rehashElement f) new = some new' ∧ new'.Stored f ∧ SameShape new new' ∧
      new'.count = new.count + es.countP isLive ∧
      ∀ a, new'.Holds f a ↔ new.Holds f a ∨ a ∈ es ∧ isLive a = true
  | [], new, hs, _, _, _, _, _, _ =>
    ⟨new, rfl, hs, SameShape.refl new, rfl, fun a => by simp⟩
  | e :: es, new, hs, hprime, hle, hcodes, hpair, hapart, hroom => by
    obtain ⟨hfirst, hlater⟩ := List.pairwise_cons.mp hpair
    rw [List.foldlM_cons]
    by_cases hlive : isLive e = true
    · have hcode := hcodes e List.mem_cons_self hlive
      have hmasked : masked e.hashcode = masked (f.keyHasher e.key) := by
        rw [hcode, masked_masked]
      obtain ⟨i, hfind, hi⟩ := hs.findElement hf hprime hle e.key hmasked
      rcases hi with ⟨hi, hcomp⟩ | hi
      · rw [hapart e List.mem_cons_self hlive i hi] at hcomp
        cases hcomp
      have hdead : isEmptyOrDeleted e.hashcode = false := by
        rw [isLive, Bool.not_eq_true'] at hlive
        exact hlive
      rw [List.countP_cons_of_pos hlive] at hroom ⊢
      have hi' : i < new.elements.length := by
        rw [hs.elements]
        exact hi.lt
      have hstep : new.rehashElement f e = some (new.withElement i e (new.count + 1)) := by
        rw [rehashElement, hdead, if_neg Bool.false_ne_true, hfind]
      have hs' : (new.withElement i e (new.count + 1)).Stored f := by
        refine hs.set_live hf hi.lt hcode hi.reached (fun j _ hj => hi.absent j hj) ?_ (by omega)
        rw [if_neg hi.free]
      have hapart' : ∀ a ∈ es, isLive a = true → ∀ j,
        (new.withElement i e (new.count + 1)).LiveAt f j →
          f.keyComparator a.key ((new.withElement i e (new.count + 1)).element f j).key =
            false := by
        intro a ha halive j hj
        rcases (liveAt_withElement hi').mp hj with ⟨hji, -⟩ | ⟨hji, hold⟩
        · rw [hji, element_withElement_self hi']
          cases hback : f.keyComparator a.key e.key with
          | false => rfl
          | true =>
            rw [← hfirst a ha hlive halive]
            exact (hf.symm hback).symm
        · rw [element_withElement_ne hi' hji]
          exact hapart a (List.mem_cons_of_mem e ha) halive j hold
      have hroom' : new.count + 1 + es.countP isLive < new.length := by omega
      obtain ⟨new', hrun, hstored, hshape, hcount, hall⟩ :=
        foldlM_rehashElement hf es hs' hprime hle
        (fun a ha => hcodes a (List.mem_cons_of_mem e ha)) hlater hapart' hroom'
      refine ⟨new', ?_, hstored, ⟨hshape.length, hshape.primeIndex, hshape.lowWaterMark,
        hshape.highWaterMark, hshape.lowWaterRatio, hshape.highWaterRatio⟩, ?_, fun a => ?_⟩
      · rw [hstep]
        exact hrun
      · rw [hcount]
        exact Nat.add_right_comm _ _ _
      · rw [hall a, holds_withElement_free hi' hlive hi.free a, List.mem_cons]
        constructor
        · rintro ((rfl | hold) | ⟨hmem, ha⟩)
          · exact Or.inr ⟨Or.inl rfl, hlive⟩
          · exact Or.inl hold
          · exact Or.inr ⟨Or.inr hmem, ha⟩
        · rintro (hold | ⟨rfl | hmem, ha⟩)
          · exact Or.inl (Or.inr hold)
          · exact Or.inl (Or.inl rfl)
          · exact Or.inr ⟨hmem, ha⟩
    · have hdead : isEmptyOrDeleted e.hashcode = true := by
        rw [isLive, Bool.not_eq_true', Bool.not_eq_false] at hlive
        exact hlive
      have hstep : new.rehashElement f e = some new := by rw [rehashElement, hdead, if_pos rfl]
      rw [List.countP_cons_of_neg hlive] at hroom ⊢
      obtain ⟨new', hrun, hstored, hshape, hcount, hall⟩ := foldlM_rehashElement hf es hs hprime hle
        (fun a ha => hcodes a (List.mem_cons_of_mem e ha)) hlater
        (fun a ha => hapart a (List.mem_cons_of_mem e ha)) hroom
      refine ⟨new', ?_, hstored, hshape, hcount, fun a => ?_⟩
      · rw [hstep]
        exact hrun
      rw [hall a, List.mem_cons]
      apply or_congr_right
      constructor
      · exact And.imp_left Or.inr
      rintro ⟨rfl | hmem, ha⟩
      · exact absurd ha hlive
      · exact ⟨hmem, ha⟩

theorem element_replicate {n : Nat} (h : hash.elements = List.replicate n (emptyElement f)) :
    hash.element f i = emptyElement f := by
  rw [element, h, List.getD_eq_getElem?_getD, List.getElem?_replicate]
  split
  · rfl
  · rfl

theorem allocate_stored {primeIndex : Nat} (hi : primeIndex < 27) :
    (hash.allocate f primeIndex true).1.Stored f ∧
    (∀ i, ¬ (hash.allocate f primeIndex true).1.LiveAt f i) := by
  have helement : ∀ i, (hash.allocate f primeIndex true).1.element f i = emptyElement f :=
    fun i => element_replicate rfl
  have hdead : ∀ i, ¬ (hash.allocate f primeIndex true).1.LiveAt f i := by
    intro i hlive
    rw [LiveAt, helement, not_liveAt_emptyElement] at hlive
    cases hlive
  refine ⟨⟨List.length_replicate, ?_, (primes_prime hi).1.pos, ?_, ?_, ?_, ?_⟩, hdead⟩
  · change 0 = (List.replicate _ (emptyElement f)).countP isLive
    rw [List.countP_replicate, not_liveAt_emptyElement, if_neg Bool.false_ne_true]
  · intro i _
    rw [helement]
    rfl
  · exact fun i hi => absurd hi (hdead i)
  · exact fun i hi => absurd hi (hdead i)
  · exact fun i _ hi => absurd hi (hdead i)

theorem primes_step : ∀ i < 26, primes.getD i 0 ≤ primes.getD (i + 1) 0 := by decide

theorem waterMark_step :
    ∀ i < 26, waterMark (primes.getD (i + 1) 0) (lowWaterRatioOf .grow) ≤ primes.getD i 0 ∧
    waterMark (primes.getD (i + 1) 0) (lowWaterRatioOf .growAndShrink) ≤ primes.getD i 0 ∧
    waterMark (primes.getD (i + 1) 0) (lowWaterRatioOf .fixed) ≤ primes.getD i 0 := by
  decide

theorem Valid.newPrimeIndex (h : hash.Valid f) {new : Nat} (hnew : hash.newPrimeIndex = some new)
    (hsmall : hash.count > hash.highWaterMark → hash.primeIndex < 26) :
    new < 27 ∧ hash.count < primes.getD new 0 := by
  have hindex := h.primeIndex
  have hcount := h.stored.count_lt
  rw [h.length] at hcount
  unfold UHashtable.newPrimeIndex at hnew
  split at hnew
  · next hfull =>
    split at hnew
    · cases hnew
    cases hnew
    have hless := hsmall hfull
    have hstep := primes_step hash.primeIndex hless
    omega
  split at hnew
  · next hlow =>
    split at hnew
    · cases hnew
    · next hpos =>
      cases hnew
      obtain ⟨policy, -, hmark, -, -⟩ := h.marked
      obtain ⟨hgrow, hshrink, hfixed⟩ := waterMark_step (hash.primeIndex - 1) (by omega)
      rw [Nat.sub_add_cancel (Nat.pos_of_ne_zero hpos), ← h.length] at hgrow hshrink hfixed
      cases policy with
      | grow => omega
      | growAndShrink => omega
      | fixed => omega
  · cases hnew

theorem holds_iff_mem {e : UHashElement T} :
    hash.Holds f e ↔ e ∈ hash.elements ∧ isLive e = true := by
  constructor
  · rintro ⟨i, hlive, rfl⟩
    refine ⟨?_, hlive⟩
    rw [element_eq_getElem hlive.lt]
    exact List.getElem_mem _
  rintro ⟨hmem, hlive⟩
  obtain ⟨i, hi, rfl⟩ := List.mem_iff_getElem.mp hmem
  refine ⟨i, ?_, element_eq_getElem hi⟩
  rw [LiveAt, element_eq_getElem hi]
  exact hlive

theorem Stored.pairwise (h : hash.Stored f) : hash.elements.reverse.Pairwise
    fun a b => isLive a = true → isLive b = true → f.keyComparator a.key b.key = false := by
  rw [List.pairwise_reverse, List.pairwise_iff_getElem]
  intro i j hi hj hij hlivej hlivei
  cases hcomp : f.keyComparator hash.elements[j].key hash.elements[i].key with
  | false => rfl
  | true =>
    rw [← element_eq_getElem (f := f) hi, ← element_eq_getElem (f := f) hj] at hcomp
    rw [← element_eq_getElem (f := f) hi] at hlivei
    rw [← element_eq_getElem (f := f) hj] at hlivej
    have := h.unique j i hlivej hlivei hcomp
    omega

theorem Valid.rehash (hf : f.Consistent) (h : hash.Valid f)
    (hsmall : hash.count > hash.highWaterMark → hash.primeIndex < 26) :
    ∃ hash', hash.rehash f true = some (hash', .zeroError) ∧ hash'.Valid f ∧ hash'.count =
    hash.count ∧
      ∀ e, hash'.Holds f e ↔ hash.Holds f e := by
  unfold UHashtable.rehash
  cases hnew : hash.newPrimeIndex with
  | none => exact ⟨hash, rfl, h, rfl, fun e => Iff.rfl⟩
  | some new =>
    obtain ⟨hlt, hroom⟩ := h.newPrimeIndex hnew hsmall
    obtain ⟨hstored, hdead⟩ := @allocate_stored T f hash new hlt
    obtain ⟨hash', hrun, hstored', hshape, hcount, hholds⟩ :=
      foldlM_rehashElement hf hash.elements.reverse hstored (primes_prime hlt).1
        (primes_prime hlt).2
      (by
        intro e he hlive
        rw [List.mem_reverse] at he
        obtain ⟨i, hi, rfl⟩ := (holds_iff_mem (f := f)).mpr ⟨he, hlive⟩
        exact h.stored.hashed i hi)
      h.stored.pairwise (fun e _ _ i hi => absurd hi (hdead i))
      (by
        change 0 + hash.elements.reverse.countP isLive < primes.getD new 0
        rw [Nat.zero_add, List.countP_reverse, ← h.stored.count]
        exact hroom)
    refine ⟨hash', ?_, ⟨?_, ?_, ?_, hstored'⟩, ?_, fun e => ?_⟩
    · dsimp only
      rw [hrun]
      rfl
    · rw [hshape.primeIndex]
      exact hlt
    · rw [hshape.length, hshape.primeIndex]
      rfl
    · obtain ⟨policy, hlow, -, hhigh, -⟩ := h.marked
      refine ⟨policy, hshape.lowWaterRatio.trans hlow, ?_, hshape.highWaterRatio.trans hhigh, ?_⟩
      · rw [hshape.lowWaterMark, hshape.length, ← hlow]
        rfl
      · rw [hshape.highWaterMark, hshape.length, ← hhigh]
        rfl
    · rw [hcount]
      change 0 + hash.elements.reverse.countP isLive = hash.count
      rw [Nat.zero_add, List.countP_reverse, ← h.stored.count]
    · rw [hholds e, List.mem_reverse, @holds_iff_mem T f hash]
      constructor
      · rintro (⟨i, hi, -⟩ | hold)
        · exact absurd hi (hdead i)
        · exact hold
      · exact Or.inr

theorem Valid.findElement (hf : f.Consistent) (h : hash.Valid f) (key : T) :
    ∃ i, hash.findElement f key (f.keyHasher key) = some i ∧
      ((hash.LiveAt f i ∧ f.keyComparator key (hash.element f i).key = true) ∨
      hash.FreeFor f key i) :=
  h.stored.findElement hf h.prime h.length_le key rfl

theorem not_isEmptyOrDeleted (h : hash.LiveAt f i) :
    ¬ isEmptyOrDeleted (hash.element f i).hashcode = true := by
  rw [LiveAt, isLive, Bool.not_eq_true'] at h
  rw [h]
  exact Bool.false_ne_true

theorem isEmptyOrDeleted_of_free (h : ¬ hash.LiveAt f i) :
    isEmptyOrDeleted (hash.element f i).hashcode = true := by
  rw [LiveAt, isLive, Bool.not_eq_true', Bool.not_eq_false] at h
  exact h

theorem Valid.get (hf : f.Consistent) (h : hash.Valid f) (hm : hash.Represents f m)
    (key : T) : hash.get f key = some ((m key).getD f.emptytok) := by
  obtain ⟨i, hfind, ⟨hlive, hcomp⟩ | hfree⟩ := h.findElement hf key
  · rw [UHashtable.get, hfind, hm.eq_some hlive hcomp]
    rfl
  · rw [UHashtable.get, hfind, hm.eq_none hfree.absent, Option.map_some, h.stored.free i hfree.free]
    rfl

theorem Valid.find (hf : f.Consistent) (h : hash.Valid f) (hm : hash.Represents f m)
    (key : T) : (∃ i, hash.find f key = some (some i) ∧ hash.LiveAt f i ∧
        f.keyComparator key (hash.element f i).key = true ∧ m key = some (hash.element f i).value) ∨
      (hash.find f key = some none ∧ m key = none) := by
  obtain ⟨i, hfind, ⟨hlive, hcomp⟩ | hfree⟩ := h.findElement hf key
  · refine Or.inl ⟨i, ?_, hlive, hcomp, hm.eq_some hlive hcomp⟩
    rw [UHashtable.find, hfind, Option.map_some, if_neg (not_isEmptyOrDeleted hlive)]
  · refine Or.inr ⟨?_, hm.eq_none hfree.absent⟩
    rw [UHashtable.find, hfind, Option.map_some, if_pos (isEmptyOrDeleted_of_free hfree.free)]

/-! ## Updates -/

theorem Valid.withElement (h : hash.Valid f)
    (hs : (hash.withElement i e c).Stored f) : (hash.withElement i e c).Valid f :=
  ⟨h.primeIndex, h.length, h.marked, hs⟩

theorem internalRemoveElement_eq (i : Nat) : hash.internalRemoveElement f i =
    (hash.withElement i ⟨hashDeleted, f.emptytok, f.emptytok⟩ (hash.count - 1),
    (hash.element f i).value) :=
  rfl

/-- The low water mark is not above the high one. -/
theorem waterMark_le : ∀ i < 27,
    waterMark (primes.getD i 0) (lowWaterRatioOf .grow) ≤ waterMark (primes.getD i 0)
    (highWaterRatioOf .grow) ∧
    waterMark (primes.getD i 0) (lowWaterRatioOf .growAndShrink) ≤
      waterMark (primes.getD i 0) (highWaterRatioOf .growAndShrink) ∧
    waterMark (primes.getD i 0) (lowWaterRatioOf .fixed) ≤
      waterMark (primes.getD i 0) (highWaterRatioOf .fixed) := by
  decide

theorem Valid.waterMark_le (h : hash.Valid f) : hash.lowWaterMark ≤ hash.highWaterMark := by
  obtain ⟨policy, -, hlow, -, hhigh⟩ := h.marked
  obtain ⟨hgrow, hshrink, hfixed⟩ := UHashtable.waterMark_le hash.primeIndex h.primeIndex
  rw [hlow, hhigh, h.length]
  cases policy with
  | grow => exact hgrow
  | growAndShrink => exact hshrink
  | fixed => exact hfixed

theorem erase_of_absent (hf : f.Consistent) (h : m key = none)
    (hm : hash.Represents f m) : erase f m key = m := by
  funext k
  unfold erase
  split
  · next hk =>
    cases hv : m k with
    | none => rfl
    | some v =>
      obtain ⟨e, he, hcomp, -⟩ := (hm k v).mp hv
      have hkey := (hm key e.value).mpr ⟨e, he, hf.trans (hf.symm hk) hcomp, rfl⟩
      rw [h] at hkey
      cases hkey
  · rfl

theorem erase_congr (hf : f.Consistent) {key' : T}
    (h : f.keyComparator key key' = true) : erase f m key' = erase f m key := by
  funext k
  unfold erase
  by_cases hk : f.keyComparator k key = true
  · rw [if_pos hk, if_pos (hf.trans hk h)]
  · rw [if_neg hk, if_neg fun hk' => hk (hf.trans hk' (hf.symm h))]

theorem rehash_of_smallest {allocates : Bool} (h : hash.count ≤ hash.highWaterMark)
    (hsmallest : hash.primeIndex = 0) : hash.rehash f allocates = some (hash, .zeroError) := by
  have hnone : hash.newPrimeIndex = none := by
    rw [newPrimeIndex, if_neg (Nat.not_lt.mpr h), hsmallest]
    split <;> rfl
  rw [UHashtable.rehash, hnone]

theorem Valid.remove (hf : f.Consistent) (h : hash.Valid f) (hm : hash.Represents f m)
    (key : T) :
    ∃ hash', hash.remove f key true = some (hash', (m key).getD f.emptytok) ∧ hash'.Valid f ∧
      hash'.Represents f (erase f m key) := by
  obtain ⟨i, hfind, ⟨hlive, hcomp⟩ | hfree⟩ := h.findElement hf key
  · have hstored := h.stored.set_deleted hlive
    have hvalid := h.withElement hstored
    have hrep := hm.set_deleted (c := hash.count - 1) hf h.stored hlive
    rw [erase_congr hf hcomp] at hrep
    rw [UHashtable.remove, hfind, hm.eq_some hlive hcomp]
    dsimp only
    rw [if_neg (not_isEmptyOrDeleted hlive), internalRemoveElement_eq]
    dsimp only
    split
    · next hlow =>
      have hmarks := h.waterMark_le
      obtain ⟨hash', hrun, hvalid', -, hsame⟩ := hvalid.rehash hf (fun hhigh => by
        dsimp only at hhigh
        omega)
      refine ⟨hash', ?_, hvalid', hrep.congr hsame⟩
      rw [hrun]
      rfl
    · exact ⟨_, rfl, hvalid, hrep⟩
  · have hnone := hm.eq_none hfree.absent
    refine ⟨hash, ?_, h, ?_⟩
    · rw [UHashtable.remove, hfind, hnone]
      dsimp only
      rw [if_pos (isEmptyOrDeleted_of_free hfree.free)]
      rfl
    · rw [erase_of_absent hf hnone hm]
      exact hm

theorem removeElement_of_live (h : hash.LiveAt f i) : (hash.removeElement f i).1 =
    hash.withElement i ⟨hashDeleted, f.emptytok, f.emptytok⟩ (hash.count - 1) := by
  have hlive : (!isEmptyOrDeleted (hash.element f i).hashcode) = true := h
  rw [UHashtable.removeElement, if_pos hlive, internalRemoveElement_eq]

theorem removeElement_of_free (h : ¬ hash.LiveAt f i) : (hash.removeElement f i).1 = hash := by
  have hfree : ¬ (!isEmptyOrDeleted (hash.element f i).hashcode) = true := h
  rw [UHashtable.removeElement, if_neg hfree]

theorem Valid.removeElement (hf : f.Consistent) (h : hash.Valid f)
    (hm : hash.Represents f m) (i : Nat) : (hash.removeElement f i).1.Valid f ∧
      (hash.removeElement f i).1.Represents f
        (if hash.LiveAt f i then erase f m (hash.element f i).key else m) := by
  by_cases hlive : hash.LiveAt f i
  · rw [if_pos hlive, removeElement_of_live hlive]
    exact ⟨h.withElement (h.stored.set_deleted hlive), hm.set_deleted hf h.stored hlive⟩
  · rw [if_neg hlive, removeElement_of_free hlive]
    exact ⟨h, hm⟩

/-- What `_uhash_put` does behind the rehash: the value is stored, or the table is full. -/
theorem Valid.putElement (hf : f.Consistent) (h : hash.Valid f)
    (hm : hash.Represents f m) (key value : T) : ∃ hash' status, hash.putElement f key value =
        some (hash', if status = .zeroError then (m key).getD f.emptytok else f.emptytok, status) ∧
      hash'.Valid f ∧
      (status = .zeroError ∧ hash'.Represents f (update f m key value) ∨
        status = .memoryAllocationError ∧ hash' = hash ∧ m key = none ∧ hash.count + 1 =
        hash.length) := by
  have hlive : isLive (⟨masked (f.keyHasher key), value, key⟩ : UHashElement T) = true := by
    simp [isLive, isEmptyOrDeleted]
  obtain ⟨i, hfind, ⟨hi, hcomp⟩ | hfree⟩ := h.findElement hf key
  · have hother : ∀ j, j ≠ i → hash.LiveAt f j → f.keyComparator key (hash.element f j).key =
      false := by
      intro j hji hj
      cases hback : f.keyComparator key (hash.element f j).key with
      | false => rfl
      | true => exact absurd (h.stored.unique j i hj hi (hf.trans (hf.symm hback) hcomp)) hji
    have hreached := h.stored.reached i hi
    rw [← hf.hash hcomp] at hreached
    have hlt : i < hash.length := by
      rw [← h.stored.elements]
      exact hi.lt
    refine ⟨hash.withElement i ⟨masked (f.keyHasher key), value, key⟩ hash.count, .zeroError, ?_,
      h.withElement ?_, Or.inl ⟨rfl, ?_⟩⟩
    · rw [UHashtable.putElement, hfind, hm.eq_some hi hcomp]
      dsimp only
      rw [if_neg (not_isEmptyOrDeleted hi)]
      rfl
    · refine h.stored.set_live hf hlt rfl hreached hother ?_ h.stored.count_lt
      rw [if_pos hi, Nat.add_zero]
    · exact hm.set_live hf hi.lt hlive (fun _ => hcomp) hother
  have hnone := hm.eq_none hfree.absent
  rw [UHashtable.putElement, hfind, hnone]
  dsimp only
  rw [if_pos (isEmptyOrDeleted_of_free hfree.free)]
  by_cases hfull : hash.count + 1 = hash.length
  · rw [if_pos hfull]
    exact ⟨hash, .memoryAllocationError, rfl, h, Or.inr ⟨rfl, rfl, rfl, hfull⟩⟩
  rw [if_neg hfull]
  have hcount := h.stored.count_lt
  have hi' : i < hash.elements.length := by
    rw [h.stored.elements]
    exact hfree.lt
  refine ⟨hash.withElement i ⟨masked (f.keyHasher key), value, key⟩ (hash.count + 1), .zeroError,
    ?_,
    h.withElement ?_, Or.inl ⟨rfl, ?_⟩⟩
  · have hvalue : ({ hash with count := hash.count + 1 }.element f i).value = f.emptytok :=
      h.stored.free i hfree.free
    rw [UHashtable.setElement, hvalue, if_pos rfl]
    rfl
  · refine h.stored.set_live hf hfree.lt rfl hfree.reached (fun j _ hj => hfree.absent j hj) ?_
      (by omega)
    rw [if_neg hfree.free]
  · exact hm.set_live hf hi' hlive (fun hi => absurd hi hfree.free) fun j _ hj => hfree.absent j hj

/-- The map after `_uhash_put`, if it succeeds. -/
def putMap [DecidableEq T] (f : KeyFunctions T) (m : T → Option T) (key value : T)
    (hintValuePointer : Bool) : T → Option T :=
  if hintValuePointer ∧ value = f.emptytok then erase f m key else update f m key value

theorem Valid.put [DecidableEq T] (hf : f.Consistent) (h : hash.Valid f)
    (hm : hash.Represents f m) (key value : T) (hint : Bool)
    (hsmall : ¬ (hint = true ∧ value = f.emptytok) → hash.count > hash.highWaterMark →
      hash.primeIndex < 26) :
    ∃ hash' status, hash.put f key value hint true =
        some (hash', if status = .zeroError then (m key).getD f.emptytok else f.emptytok, status) ∧
      hash'.Valid f ∧
      (status = .zeroError ∧ hash'.Represents f (putMap f m key value hint) ∨
        status = .memoryAllocationError ∧ hash'.Represents f m ∧ m key = none ∧
          hash'.count + 1 = hash'.length) := by
  unfold UHashtable.put putMap
  by_cases hnull : hint = true ∧ value = f.emptytok
  · obtain ⟨hash', hrun, hvalid, hrep⟩ := h.remove hf hm key
    refine ⟨hash', .zeroError, ?_, hvalid, Or.inl ⟨rfl, ?_⟩⟩
    · rw [if_pos hnull, hrun]
      rfl
    · rw [if_pos hnull]
      exact hrep
  rw [if_neg hnull, if_neg hnull]
  split
  · next hfull =>
    obtain ⟨hash₁, hrun, hvalid₁, -, hsame⟩ := h.rehash hf (hsmall hnull)
    have hm₁ := hm.congr hsame
    obtain ⟨hash', status, hput, hvalid, hresult⟩ := hvalid₁.putElement hf hm₁ key value
    refine ⟨hash', status, ?_, hvalid, ?_⟩
    · rw [hrun]
      exact hput
    rcases hresult with hok | ⟨hstatus, heq, hnone, hcount⟩
    · exact Or.inl hok
    rw [heq]
    exact Or.inr ⟨hstatus, hm₁, hnone, hcount⟩
  · obtain ⟨hash', status, hput, hvalid, hresult⟩ := h.putElement hf hm key value
    refine ⟨hash', status, hput, hvalid, ?_⟩
    rcases hresult with hok | ⟨hstatus, heq, hnone, hcount⟩
    · exact Or.inl hok
    rw [heq]
    exact Or.inr ⟨hstatus, hm, hnone, hcount⟩

theorem Valid.setResizePolicy (hf : f.Consistent) (h : hash.Valid f)
    (hm : hash.Represents f m) (policy : UHashResizePolicy)
    (hsmall : hash.count > waterMark hash.length (highWaterRatioOf policy) → hash.primeIndex < 26) :
    ∃ hash', hash.setResizePolicy f policy true = some hash' ∧ hash'.Valid f ∧
    hash'.Represents f m := by
  let marked : UHashtable T := { hash with
    lowWaterRatio := lowWaterRatioOf policy
    highWaterRatio := highWaterRatioOf policy
    lowWaterMark := waterMark hash.length (lowWaterRatioOf policy)
    highWaterMark := waterMark hash.length (highWaterRatioOf policy) }
  have hvalid : marked.Valid f :=
    ⟨h.primeIndex, h.length, ⟨policy, rfl, rfl, rfl, rfl⟩, ⟨h.stored.elements, h.stored.count,
      h.stored.count_lt, h.stored.free, h.stored.hashed, h.stored.reached, h.stored.unique⟩⟩
  obtain ⟨hash', hrun, hvalid', -, hsame⟩ := hvalid.rehash hf hsmall
  refine ⟨hash', ?_, hvalid', hm.congr hsame⟩
  unfold UHashtable.setResizePolicy
  exact congrArg (Option.map Prod.fst) hrun

theorem nextLoop_eq_none_iff : ∀ {fuel i : Nat},
    hash.nextLoop f fuel i = none ↔ ∀ j, i ≤ j → j < i + fuel → ¬ hash.LiveAt f j
  | 0, i => by
    rw [nextLoop]
    exact ⟨fun _ j hle hlt => absurd hlt (by omega), fun _ => rfl⟩
  | fuel + 1, i => by
    rw [nextLoop]
    split
    · next hlive => exact ⟨nofun, fun h => absurd hlive (h i (Nat.le_refl i) (by omega))⟩
    · next hdead =>
      rw [nextLoop_eq_none_iff]
      constructor
      · intro h j hle hlt
        rcases Nat.eq_or_lt_of_le hle with heq | hless
        · rw [← heq]
          exact hdead
        · exact h j hless (by omega)
      · exact fun h j hle hlt => h j (by omega) (by omega)

theorem nextLoop_eq_some {k : Nat} : ∀ {fuel i : Nat}, hash.nextLoop f fuel i = some k →
    i ≤ k ∧ hash.LiveAt f k ∧ ∀ j, i ≤ j → j < k → ¬ hash.LiveAt f j
  | fuel + 1, i, h => by
    rw [nextLoop] at h
    split at h
    · next hlive =>
      cases h
      exact ⟨Nat.le_refl _, hlive, fun j hle hlt => absurd hlt (by omega)⟩
    · next hdead =>
      obtain ⟨hle, hlive, hbefore⟩ := nextLoop_eq_some h
      refine ⟨by omega, hlive, fun j hij hjk => ?_⟩
      rcases Nat.eq_or_lt_of_le hij with heq | hless
      · rw [← heq]
        exact hdead
      · exact hbefore j hless hjk

theorem Stored.nextElement_eq_none (h : hash.Stored f) (hnext : hash.nextElement f pos = none)
    {j : Nat} (hj : pos < j) : ¬ hash.LiveAt f j := by
  intro hlive
  have hlt := hlive.lt
  rw [h.elements] at hlt
  exact nextLoop_eq_none_iff.mp hnext j (by omega) (by omega) hlive

theorem nextElement_eq_some (hpos : -1 ≤ pos) (hnext : hash.nextElement f pos = some i) :
    pos < i ∧ hash.LiveAt f i ∧ ∀ j : Nat, pos < j → j < i → ¬ hash.LiveAt f j := by
  obtain ⟨hle, hlive, hbefore⟩ := nextLoop_eq_some hnext
  exact ⟨by omega, hlive, fun j hj hji => hbefore j (by omega) hji⟩

theorem Valid.removeAllLoop (hf : f.Consistent) : ∀ {fuel : Nat} {hash : UHashtable T} {pos : Int}
    {m : T → Option T}, hash.Valid f → hash.Represents f m → -1 ≤ pos →
      (∀ j, hash.LiveAt f j → pos < j) → hash.count < fuel →
      (removeAllLoop f fuel hash pos).Valid f ∧
        (removeAllLoop f fuel hash pos).Represents f fun _ => none
  | fuel + 1, hash, pos, m, h, hm, hpos, hbehind, hfuel => by
    rw [UHashtable.removeAllLoop]
    cases hnext : hash.nextElement f pos with
    | none =>
      refine ⟨h, fun k v => ⟨nofun, ?_⟩⟩
      rintro ⟨e, ⟨i, hlive, _⟩, _⟩
      exact absurd hlive (h.stored.nextElement_eq_none hnext (hbehind i hlive))
    | some i =>
      obtain ⟨hlt, hlive, hbefore⟩ := nextElement_eq_some hpos hnext
      obtain ⟨hvalid, hrep⟩ := h.removeElement hf hm i
      have hcount : 0 < hash.count := by
        rw [h.stored.count]
        exact List.countP_pos_iff.mpr ⟨_, (holds_iff_mem.mp ⟨i, hlive, rfl⟩).1, hlive⟩
      refine Valid.removeAllLoop hf hvalid hrep (by omega) ?_ ?_
      · intro j hj
        rw [removeElement_of_live hlive, liveAt_withElement hlive.lt] at hj
        rcases hj with ⟨-, hbad⟩ | ⟨hji, hold⟩
        · cases hbad
        by_contra hle
        exact hbefore j (hbehind j hold) (by omega) hold
      · rw [removeElement_of_live hlive]
        change hash.count - 1 < fuel
        omega

theorem Valid.removeAll (hf : f.Consistent) (h : hash.Valid f) (hm : hash.Represents f m) :
    (hash.removeAll f).Valid f ∧ (hash.removeAll f).Represents f fun _ => none := by
  unfold UHashtable.removeAll
  split
  · have hcount := h.stored.count_lt
    exact Valid.removeAllLoop hf h hm (Int.le_refl _) (fun j _ => by omega) (by omega)
  · next hzero =>
    refine ⟨h, fun k v => ⟨nofun, ?_⟩⟩
    rintro ⟨e, he, -⟩
    have hpos : 0 < hash.elements.countP isLive :=
      List.countP_pos_iff.mpr ⟨e, holds_iff_mem.mp he⟩
    rw [← h.stored.count] at hpos
    omega

end UHashtable

end Icu.UHash
