import Icu.UHash.Map

/-! # Rehashes that find no memory

`_uhash_allocate` overwrites the prime index before it can fail, and `_uhash_rehash` puts back only
the elements and the length. Runs in which each allocation of a rehash may fail.
-/

namespace Icu.UHash

variable {T : Type} {before : UHashtable T} {m : T → Option T}

namespace UHashtable

variable {f : KeyFunctions T} {hash : UHashtable T} {new : Nat} {key : T}

theorem rehash_of_none (h : hash.newPrimeIndex = none) (allocates : Bool) :
    hash.rehash f allocates = some (hash, .zeroError) := by
  unfold rehash
  rw [h]

theorem rehash_without_memory (h : hash.newPrimeIndex = some new) :
    hash.rehash f false = some ({ hash with primeIndex := new }, .memoryAllocationError) := by
  unfold rehash
  rw [h]
  rfl

theorem newPrimeIndex_ne (h : hash.newPrimeIndex = some new) : new ≠ hash.primeIndex := by
  unfold newPrimeIndex at h
  split at h
  · split at h
    · cases h
    cases h
    omega
  split at h
  · split at h
    · cases h
    cases h
    omega
  · cases h

def FailureKeeps (f : KeyFunctions T) (hash : UHashtable T) (allocates : Bool) : Prop :=
  ∀ after status, hash.rehash f allocates = some (after, status) → status ≠ .zeroError → after =
    hash

def Resizes (hash : UHashtable T) : Prop := hash.newPrimeIndex ≠ none

instance : Decidable hash.Resizes := inferInstanceAs (Decidable (_ ≠ none))

theorem rehash_of_not_resizes (h : ¬ hash.Resizes) (allocates : Bool) :
    hash.rehash f allocates = some (hash, .zeroError) :=
  rehash_of_none (not_not.mp h) allocates

theorem failureKeeps_false_iff : hash.FailureKeeps f false ↔ ¬ hash.Resizes := by
  constructor
  · intro hkeeps hresizes
    obtain ⟨new, hnew⟩ := Option.ne_none_iff_exists'.mp hresizes
    have hsame := hkeeps _ _ (rehash_without_memory hnew) (by decide)
    exact newPrimeIndex_ne hnew (congrArg UHashtable.primeIndex hsame)
  · intro hsame after status hrun hstatus
    rw [rehash_of_not_resizes hsame] at hrun
    cases hrun
    exact absurd rfl hstatus

/-- The table with the water marks of a policy, as `uhash_setResizePolicy` hands it on. -/
def withPolicy (hash : UHashtable T) (policy : UHashResizePolicy) : UHashtable T :=
  let hash := hash.internalSetResizePolicy policy
  { hash with
    lowWaterMark := waterMark hash.length hash.lowWaterRatio
    highWaterMark := waterMark hash.length hash.highWaterRatio }

theorem Valid.withPolicy (h : hash.Valid f) (policy : UHashResizePolicy) :
    (hash.withPolicy policy).Valid f :=
  ⟨h.primeIndex, h.length, ⟨policy, rfl, rfl, rfl, rfl⟩, ⟨h.stored.elements, h.stored.count,
    h.stored.count_lt, h.stored.free, h.stored.hashed, h.stored.reached, h.stored.unique⟩⟩

/-- The table that `_uhash_remove` hands to `_uhash_rehash`. -/
def removeRehashes (f : KeyFunctions T) (hash : UHashtable T) (key : T) : Option (UHashtable T) :=
  match hash.findElement f key (f.keyHasher key) with
  | none => none
  | some i =>
    if isEmptyOrDeleted (hash.element f i).hashcode then none
    else
      let r := hash.internalRemoveElement f i
      if r.1.count < r.1.lowWaterMark then some r.1 else none

theorem remove_congr (h : ∀ before, hash.removeRehashes f key = some before → ¬ before.Resizes)
    (allocates : Bool) : hash.remove f key allocates = hash.remove f key true := by
  unfold remove
  unfold removeRehashes at h
  cases hfind : hash.findElement f key (f.keyHasher key) with
  | none => rfl
  | some i =>
    simp only [hfind] at h
    dsimp only
    split
    · rfl
    · next hlive =>
      rw [if_neg hlive] at h
      split
      · next hlow =>
        have hsame := h _ (if_pos hlow)
        rw [rehash_of_not_resizes hsame, rehash_of_not_resizes hsame]
      · rfl

theorem put_congr [DecidableEq T] {value : T} {hint : Bool}
    (hremove : hint = true ∧ value = f.emptytok →
      ∀ before, hash.removeRehashes f key = some before → ¬ before.Resizes)
    (hfull : ¬ (hint = true ∧ value = f.emptytok) → hash.count > hash.highWaterMark →
    ¬ hash.Resizes)
    (allocates : Bool) : hash.put f key value hint allocates = hash.put f key value hint true := by
  unfold put
  by_cases hnull : hint = true ∧ value = f.emptytok
  · rw [if_pos hnull, if_pos hnull, remove_congr (hremove hnull)]
  rw [if_neg hnull, if_neg hnull]
  by_cases hhigh : hash.count > hash.highWaterMark
  · have hsame := hfull hnull hhigh
    rw [rehash_of_not_resizes hsame, rehash_of_not_resizes hsame]
  · rw [if_neg hhigh, if_neg hhigh]

/-- What a removal hands on is a table in order, and it is not above the high water mark. -/
theorem Valid.removeRehashes (h : hash.Valid f)
    (hbefore : hash.removeRehashes f key = some before) :
    before.Valid f ∧ ¬ before.count > before.highWaterMark := by
  unfold UHashtable.removeRehashes at hbefore
  cases hfind : hash.findElement f key (f.keyHasher key) with
  | none =>
    rw [hfind] at hbefore
    cases hbefore
  | some i =>
    simp only [hfind] at hbefore
    split at hbefore
    · cases hbefore
    · next hlive =>
      split at hbefore
      · next hlow =>
        cases hbefore
        have hi : hash.LiveAt f i := by
          rw [LiveAt, isLive, Bool.not_eq_true']
          exact Bool.not_eq_true _ ▸ hlive
        have hvalid := h.withElement (h.stored.set_deleted hi)
        have hmarks := h.waterMark_le
        rw [internalRemoveElement_eq] at hlow ⊢
        refine ⟨hvalid, ?_⟩
        dsimp only at hlow ⊢
        omega
      · cases hbefore

end UHashtable

/-- A table has the size of its prime index, it is not full, and it holds the elements that were put
and not removed. -/
structure Sound (f : KeyFunctions T) (hash : UHashtable T) (m : T → Option T) : Prop where
  length : hash.length = primes.getD hash.primeIndex 0
  array : hash.elements.length = hash.length
  count : hash.count = hash.elements.countP isLive
  count_lt : hash.count < hash.length
  kept : hash.Represents f m

/-- The rehash of a call, if it fails, leaves the table as it was, and the size that it chooses has
room for all elements. -/
structure RehashSound (f : KeyFunctions T) (before : UHashtable T) (allocates : Bool) : Prop where
  keeps : before.FailureKeeps f allocates
  fits : ∀ new, before.newPrimeIndex = some new → before.count < primes.getD new 0

theorem UHashtable.Valid.sound {f : KeyFunctions T} {hash : UHashtable T}
    (h : hash.Valid f) (hm : hash.Represents f m) : Sound f hash m where
  length := h.length
  array := h.stored.elements
  count := h.stored.count
  count_lt := h.stored.count_lt
  kept := hm

/-- A rehash with the memory that it needs does not fail. -/
theorem UHashtable.Valid.rehashSound {f : KeyFunctions T} (hf : f.Consistent) {hash : UHashtable T}
    (h : hash.Valid f) (hbelow : hash.count > hash.highWaterMark → hash.primeIndex < 26)
    {allocates : Bool} (hmemory : hash.Resizes → allocates = true) :
    RehashSound f hash allocates := by
  refine ⟨?_, fun new hnew => (h.newPrimeIndex hnew hbelow).2⟩
  intro after status hrun hstatus
  by_cases hresizes : hash.Resizes
  · obtain ⟨hash', hsuccess, -⟩ := h.rehash hf hbelow
    rw [hmemory hresizes, hsuccess] at hrun
    cases hrun
    exact absurd rfl hstatus
  · rw [UHashtable.rehash_of_not_resizes hresizes] at hrun
    cases hrun
    rfl

section Calls

variable [DecidableEq T] {now : UHashtable T × (T → Option T)}

/-- The table after a call, and its status, when the memory for another array is there or is not. -/
def callWith (f : KeyFunctions T) (hash : UHashtable T) (allocates : Bool) :
    Call T → Option (UHashtable T × UErrorCode)
  | .put key value => (hash.put f key value true allocates).map fun r => (r.1, r.2.2)
  | .puti key value => (hash.put f key value false allocates).map fun r => (r.1, r.2.2)
  | .remove key => (hash.remove f key allocates).map fun r => (r.1, .zeroError)
  | .removeElement i => some ((hash.removeElement f i).1, .zeroError)
  | .removeAll => some (hash.removeAll f, .zeroError)
  | .setResizePolicy policy =>
    (hash.setResizePolicy f policy allocates).map fun hash => (hash, .zeroError)
  | .get key => (hash.get f key).map fun _ => (hash, .zeroError)
  | .find key => (hash.find f key).map fun _ => (hash, .zeroError)

/-- The table that a call hands to `_uhash_rehash`, if it does. -/
def rehashes (f : KeyFunctions T) (hash : UHashtable T) : Call T → Option (UHashtable T)
  | .put key value =>
    if value = f.emptytok then hash.removeRehashes f key
    else if hash.count > hash.highWaterMark then some hash else none
  | .puti _ _ => if hash.count > hash.highWaterMark then some hash else none
  | .remove key => hash.removeRehashes f key
  | .setResizePolicy policy => some (hash.withPolicy policy)
  | _ => none

def NeedsMemory (f : KeyFunctions T) (hash : UHashtable T) (c : Call T) : Prop :=
  ∃ before ∈ rehashes f hash c, before.Resizes

instance decidableNeedsMemory (f : KeyFunctions T) (hash : UHashtable T) (c : Call T) :
    Decidable (NeedsMemory f hash c) :=
      inferInstanceAs (Decidable (∃ before ∈ rehashes f hash c, _))

/-- A call, and whether there is memory for its rehash. -/
abbrev Attempt (T : Type) := Call T × Bool

def stepWith (f : KeyFunctions T) (now : UHashtable T × (T → Option T)) (c : Attempt T) :
    Option (UHashtable T × (T → Option T)) :=
  (callWith f now.1 c.2 c.1).map fun r => (r.1, replay f now.1 now.2 r.2 c.1)

def runWith (f : KeyFunctions T) (start : UHashtable T × (T → Option T))
    (calls : List (Attempt T)) :
    Option (UHashtable T × (T → Option T)) := calls.foldlM (stepWith f) start

def EachStep (f : KeyFunctions T) (p : UHashtable T → Attempt T → Prop) :
    UHashtable T × (T → Option T) → List (Attempt T) → Prop
  | _, [] => True
  | now, c :: cs => p now.1 c ∧
      match stepWith f now c with
      | none => True
      | some next => EachStep f p next cs

instance decidableEachStep (f : KeyFunctions T) (p : UHashtable T → Attempt T → Prop)
    [∀ hash c, Decidable (p hash c)] :
    ∀ (now : UHashtable T × (T → Option T)) (calls : List (Attempt T)), Decidable
      (EachStep f p now calls)
  | _, [] => isTrue trivial
  | now, c :: cs =>
    have : Decidable (match stepWith f now c with
        | none => True
        | some next => EachStep f p next cs) :=
      match stepWith f now c with
      | none => isTrue trivial
      | some next => decidableEachStep f p next cs
    inferInstanceAs (Decidable (_ ∧ _))

def GetsMemory (f : KeyFunctions T) (hash : UHashtable T) (c : Attempt T) : Prop :=
  NeedsMemory f hash c.1 → c.2 = true

instance decidableGetsMemory (f : KeyFunctions T) (hash : UHashtable T) (c : Attempt T) :
    Decidable (GetsMemory f hash c) := inferInstanceAs (Decidable (_ → _))

def StaysBelow (f : KeyFunctions T) (hash : UHashtable T) (c : Attempt T) : Prop :=
  Enlarges f hash c.1 → hash.primeIndex < 26

instance decidableStaysBelow (f : KeyFunctions T) (hash : UHashtable T) (c : Attempt T) :
    Decidable (StaysBelow f hash c) := inferInstanceAs (Decidable (_ → _))

/-- Every table of a run is in order, and so is every rehash. -/
def Survives (f : KeyFunctions T) : UHashtable T × (T → Option T) → List (Attempt T) → Prop
  | now, [] => Sound f now.1 now.2
  | now, c :: cs => Sound f now.1 now.2 ∧ (∀ before ∈ rehashes f now.1 c.1,
    RehashSound f before c.2) ∧
      ∃ next, stepWith f now c = some next ∧ Survives f next cs

variable {c : Attempt T}

/-- The answer of the allocation does not matter when no memory is needed. -/
theorem callWith_eq {f : KeyFunctions T} {hash : UHashtable T}
    (h : GetsMemory f hash c) : callWith f hash c.2 c.1 = call f hash c.1 := by
  obtain ⟨c, allocates⟩ := c
  cases allocates with
  | true => cases c <;> rfl
  | false =>
    have hsame : ∀ before ∈ rehashes f hash c, ¬ before.Resizes :=
      fun before hbefore hresizes => Bool.false_ne_true (h ⟨before, hbefore, hresizes⟩)
    cases c with
    | put key value =>
      have hput : hash.put f key value true false = hash.put f key value true true := by
        apply UHashtable.put_congr
        · intro hnull
          exact fun before hbefore => hsame before ((if_pos hnull.2).trans hbefore)
        intro hvalue hfull
        have hvalue' : ¬ value = f.emptytok := fun hnull => hvalue ⟨rfl, hnull⟩
        exact hsame hash ((if_neg hvalue').trans (if_pos hfull))
      dsimp only [callWith, call]
      rw [hput]
    | puti key value =>
      have hput : hash.put f key value false false = hash.put f key value false true := by
        apply UHashtable.put_congr
        · exact fun hnull => absurd hnull.1 Bool.false_ne_true
        · exact fun _ hfull => hsame hash (if_pos hfull)
      dsimp only [callWith, call]
      rw [hput]
    | remove key =>
      dsimp only [callWith, call]
      rw [UHashtable.remove_congr hsame]
    | setResizePolicy policy =>
      have hpolicy := hsame (hash.withPolicy policy) rfl
      dsimp only [callWith, call]
      unfold UHashtable.setResizePolicy
      change Option.map _ (Option.map _ ((hash.withPolicy policy).rehash f false)) =
        Option.map _ (Option.map _ ((hash.withPolicy policy).rehash f true))
      rw [UHashtable.rehash_of_not_resizes hpolicy, UHashtable.rehash_of_not_resizes hpolicy]
    | removeElement i => rfl
    | removeAll => rfl
    | get key => rfl
    | find key => rfl

/-- A call hands on a table in order, and does not enlarge it to the largest prime. -/
theorem rehashes_valid {f : KeyFunctions T} {hash : UHashtable T} (h : hash.Valid f)
    (hbelow : StaysBelow f hash c) (hbefore : before ∈ rehashes f hash c.1) :
    before.Valid f ∧ (before.count > before.highWaterMark → before.primeIndex < 26) := by
  have hremove : ∀ key, hash.removeRehashes f key = some before →
      before.Valid f ∧ (before.count > before.highWaterMark → before.primeIndex < 26) := by
    intro key hkey
    obtain ⟨hvalid, hlow⟩ := h.removeRehashes hkey
    exact ⟨hvalid, fun hfull => absurd hfull hlow⟩
  obtain ⟨c, allocates⟩ := c
  cases c with
  | put key value =>
    dsimp only [rehashes] at hbefore
    split at hbefore
    · exact hremove key hbefore
    · next hnull =>
      split at hbefore
      · next hfull =>
        cases hbefore
        exact ⟨h, fun _ => hbelow ⟨hnull, hfull⟩⟩
      · cases hbefore
  | puti key value =>
    dsimp only [rehashes] at hbefore
    split at hbefore
    · next hfull =>
      cases hbefore
      exact ⟨h, fun _ => hbelow hfull⟩
    · cases hbefore
  | remove key => exact hremove key hbefore
  | setResizePolicy policy =>
    cases hbefore
    exact ⟨h.withPolicy policy, hbelow⟩
  | removeElement i => cases hbefore
  | removeAll => cases hbefore
  | get key => cases hbefore
  | find key => cases hbefore

theorem stepWith_valid {f : KeyFunctions T} (hf : f.Consistent) {hash : UHashtable T}
    (h : hash.Valid f) (hm : hash.Represents f m) (hbelow : StaysBelow f hash c)
    (hmemory : GetsMemory f hash c) :
    ∃ hash' m', stepWith f (hash, m) c = some (hash', m') ∧ hash'.Valid f ∧
    hash'.Represents f m' := by
  unfold stepWith
  rw [callWith_eq hmemory]
  exact step_valid hf h hm hbelow

theorem survives_of_getsMemory {f : KeyFunctions T} (hf : f.Consistent) (calls : List (Attempt T))
    {hash : UHashtable T} (h : hash.Valid f) (hm : hash.Represents f m)
    (hbelow : EachStep f (StaysBelow f) (hash, m) calls)
    (hmemory : EachStep f (GetsMemory f) (hash, m) calls) : Survives f (hash, m) calls := by
  induction calls generalizing hash m with
  | nil => exact h.sound hm
  | cons c calls ih =>
    obtain ⟨hbelow, hbelow'⟩ := hbelow
    obtain ⟨hmemory, hmemory'⟩ := hmemory
    obtain ⟨hash', m', hstep, hvalid, hrep⟩ := stepWith_valid hf h hm hbelow hmemory
    rw [hstep] at hbelow' hmemory'
    refine ⟨h.sound hm, ?_, (hash', m'), hstep, ih hvalid hrep hbelow' hmemory'⟩
    intro before hbefore
    obtain ⟨hvalid', hbelow''⟩ := rehashes_valid h hbelow hbefore
    exact hvalid'.rehashSound hf hbelow'' fun hresizes => hmemory ⟨before, hbefore, hresizes⟩

theorem getsMemory_of_survives {f : KeyFunctions T} (calls : List (Attempt T))
    (h : Survives f now calls) : EachStep f (GetsMemory f) now calls := by
  induction calls generalizing now with
  | nil => trivial
  | cons c calls ih =>
    obtain ⟨-, hrehash, next, hstep, hrest⟩ := h
    unfold EachStep
    rw [hstep]
    refine ⟨?_, ih hrest⟩
    rintro ⟨before, hbefore, hresizes⟩
    cases hmemory : c.2 with
    | true => rfl
    | false =>
      have hkeeps := (hrehash before hbefore).keeps
      rw [hmemory] at hkeeps
      exact absurd hresizes (UHashtable.failureKeeps_false_iff.mp hkeeps)

/-- In the runs below the largest prime the table survives just when every rehash that chooses
another size gets its memory. -/
theorem survives_iff {f : KeyFunctions T} (hf : f.Consistent) {primeIndex : Nat}
    (hindex : primeIndex < 27)
    {calls : List (Attempt T)}
    (hbelow : EachStep f (StaysBelow f) (init f primeIndex, fun _ => none) calls) :
    Survives f (init f primeIndex, fun _ => none) calls ↔
      EachStep f (GetsMemory f) (init f primeIndex, fun _ => none) calls := by
  obtain ⟨hvalid, hrep⟩ := init_valid f hindex
  exact ⟨getsMemory_of_survives calls, survives_of_getsMemory hf calls hvalid hrep hbelow⟩

/-- Eight keys enlarge a table of 13 slots, and a removal needs no memory. -/
theorem survives_iff_integers : Survives integerKeys (init integerKeys 0, fun _ => none)
    [(.put 1 1, true), (.put 2 2, true), (.put 3 3, true), (.put 4 4, true), (.put 5 5, true),
      (.put 6 6, true), (.put 7 7, true), (.put 8 8, true), (.remove 3, false)] :=
  (survives_iff integerKeys_consistent (by decide) (by decide)).mpr (by decide)

theorem Survives.run {f : KeyFunctions T} {calls : List (Attempt T)}
    (h : Survives f now calls) : ∃ next, runWith f now calls = some next := by
  induction calls generalizing now with
  | nil => exact ⟨now, rfl⟩
  | cons c calls ih =>
    obtain ⟨-, -, next, hstep, hrest⟩ := h
    obtain ⟨last, hlast⟩ := ih hrest
    refine ⟨last, ?_⟩
    unfold runWith
    rw [List.foldlM_cons, hstep]
    exact hlast

/-- Twenty-six keys in a table of 251 slots, then removals under `U_GROW_AND_SHRINK`. -/
def shrinkingCalls (removals : List (Attempt Nat)) : List (Attempt Nat) :=
  (List.range 26).map (fun i => (.put (i + 1) 1, true)) ++ [(.setResizePolicy .growAndShrink,
    true)] ++ removals

/-- Three removals find no memory for a smaller table, and each of them lowers the prime index. The
fourth finds memory for 13 slots, but there are 21 elements. -/
theorem shrinking_overfills :
    (runWith integerKeys (init integerKeys 4, fun _ => none) (shrinkingCalls
        [(.remove 1, true), (.remove 2, false), (.remove 3, false), (.remove 4, false)])).map
      (fun now => (now.1.length, now.1.primeIndex, now.1.count)) = some (251, 1, 22) ∧
    ¬ Survives integerKeys (init integerKeys 4, fun _ => none) (shrinkingCalls
        [(.remove 1, true), (.remove 2, false), (.remove 3, false), (.remove 4, false),
          (.remove 5, true)]) := by
  refine ⟨by decide, fun hsurvives => ?_⟩
  obtain ⟨next, hnext⟩ := hsurvives.run
  have hcrash : (runWith integerKeys (init integerKeys 4, fun _ => none) (shrinkingCalls
      [(.remove 1, true), (.remove 2, false), (.remove 3, false), (.remove 4, false),
        (.remove 5, true)])).isNone = true := by
    set_option maxRecDepth 1000 in decide
  rw [hnext] at hcrash
  cases hcrash

end Calls

end Icu.UHash
