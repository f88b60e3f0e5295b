import Icu.UHash.Operations

/-! # `UHashtable` is a finite map

Runs of calls, beside the map that replays them, and iterations in which elements that were visited
are removed.
-/

namespace Icu.UHash

open Lib.OpenAddressing

variable {T : Type} {m : T → Option T}

section Calls

variable [DecidableEq T]

/-- The calls on a table. Those that only look at it do not change it. -/
inductive Call (T : Type)
  | put (key value : T)
  | puti (key value : T)
  | remove (key : T)
  | removeElement (i : Nat)
  | removeAll
  | setResizePolicy (policy : UHashResizePolicy)
  | get (key : T)
  | find (key : T)

/-- The table after a call, and its status, when memory can be allocated. -/
def call (f : KeyFunctions T) (hash : UHashtable T) : Call T → Option (UHashtable T × UErrorCode)
  | .put key value => (hash.put f key value true true).map fun r => (r.1, r.2.2)
  | .puti key value => (hash.put f key value false true).map fun r => (r.1, r.2.2)
  | .remove key => (hash.remove f key true).map fun r => (r.1, .zeroError)
  | .removeElement i => some ((hash.removeElement f i).1, .zeroError)
  | .removeAll => some (hash.removeAll f, .zeroError)
  | .setResizePolicy policy => (hash.setResizePolicy f policy true).map fun hash =>
    (hash, .zeroError)
  | .get key => (hash.get f key).map fun _ => (hash, .zeroError)
  | .find key => (hash.find f key).map fun _ => (hash, .zeroError)

def replay (f : KeyFunctions T) (hash : UHashtable T) (m : T → Option T) (status : UErrorCode) :
    Call T → T → Option T
  | .put key value => if status = .zeroError then UHashtable.putMap f m key value true else m
  | .puti key value => if status = .zeroError then update f m key value else m
  | .remove key => erase f m key
  | .removeElement i => if hash.LiveAt f i then erase f m (hash.element f i).key else m
  | .removeAll => fun _ => none
  | .setResizePolicy _ => m
  | .get _ => m
  | .find _ => m

def step (f : KeyFunctions T) (now : UHashtable T × (T → Option T)) (c : Call T) :
    Option (UHashtable T × (T → Option T)) :=
  (call f now.1 c).map fun r => (r.1, replay f now.1 now.2 r.2 c)

def run (f : KeyFunctions T) (start : UHashtable T × (T → Option T)) (calls : List (Call T)) :
    Option (UHashtable T × (T → Option T)) := calls.foldlM (step f) start

def Enlarges (f : KeyFunctions T) (hash : UHashtable T) : Call T → Prop
  | .put _ value => value ≠ f.emptytok ∧ hash.count > hash.highWaterMark
  | .puti _ _ => hash.count > hash.highWaterMark
  | .setResizePolicy policy => hash.count > waterMark hash.length (highWaterRatioOf policy)
  | _ => False

def StaysSmall (f : KeyFunctions T) : UHashtable T × (T → Option T) → List (Call T) → Prop
  | _, [] => True
  | now, c :: cs => (Enlarges f now.1 c → now.1.primeIndex < 26) ∧
      match step f now c with
      | none => True
      | some next => StaysSmall f next cs

instance decidableEnlarges (f : KeyFunctions T) (hash : UHashtable T) :
    ∀ c : Call T, Decidable (Enlarges f hash c)
  | .put _ value => inferInstanceAs
    (Decidable (value ≠ f.emptytok ∧ hash.count > hash.highWaterMark))
  | .puti _ _ => inferInstanceAs (Decidable (hash.count > hash.highWaterMark))
  | .setResizePolicy policy =>
    inferInstanceAs (Decidable (hash.count > waterMark hash.length (highWaterRatioOf policy)))
  | .remove _ => isFalse id
  | .removeElement _ => isFalse id
  | .removeAll => isFalse id
  | .get _ => isFalse id
  | .find _ => isFalse id

instance decidableStaysSmall (f : KeyFunctions T) :
    ∀ (now : UHashtable T × (T → Option T)) (calls : List (Call T)), Decidable
      (StaysSmall f now calls)
  | _, [] => isTrue trivial
  | now, c :: cs =>
    have : Decidable (match step f now c with
        | none => True
        | some next => StaysSmall f next cs) :=
      match step f now c with
      | none => isTrue trivial
      | some next => decidableStaysSmall f next cs
    inferInstanceAs (Decidable (_ ∧ _))

theorem step_valid {f : KeyFunctions T} (hf : f.Consistent) {hash : UHashtable T}
    (h : hash.Valid f) (hm : hash.Represents f m) {c : Call T}
    (hsmall : Enlarges f hash c → hash.primeIndex < 26) :
    ∃ hash' m', step f (hash, m) c = some (hash', m') ∧ hash'.Valid f ∧ hash'.Represents f m' := by
  unfold step
  cases c with
  | put key value =>
    obtain ⟨hash', status, hrun, hvalid, hresult⟩ := h.put hf hm key value true
      (fun hnull hfull => hsmall ⟨fun hzero => hnull ⟨rfl, hzero⟩, hfull⟩)
    refine ⟨hash', _, by dsimp only [call]; rw [hrun]; rfl, hvalid, ?_⟩
    rcases hresult with ⟨hstatus, hrep⟩ | ⟨hstatus, hrep, -⟩
    · rw [hstatus, if_pos rfl]
      exact hrep
    · rw [hstatus, if_neg (by decide)]
      exact hrep
  | puti key value =>
    obtain ⟨hash', status, hrun, hvalid, hresult⟩ := h.put hf hm key value false (fun _ => hsmall)
    refine ⟨hash', _, by dsimp only [call]; rw [hrun]; rfl, hvalid, ?_⟩
    rcases hresult with ⟨hstatus, hrep⟩ | ⟨hstatus, hrep, -⟩
    · rw [UHashtable.putMap, if_neg (fun hnull => Bool.false_ne_true hnull.1)] at hrep
      rw [hstatus, if_pos rfl]
      exact hrep
    · rw [hstatus, if_neg (by decide)]
      exact hrep
  | remove key =>
    obtain ⟨hash', hrun, hvalid, hrep⟩ := h.remove hf hm key
    exact ⟨hash', _, by dsimp only [call]; rw [hrun]; rfl, hvalid, hrep⟩
  | removeElement i =>
    obtain ⟨hvalid, hrep⟩ := h.removeElement hf hm i
    exact ⟨_, _, rfl, hvalid, hrep⟩
  | removeAll =>
    obtain ⟨hvalid, hrep⟩ := h.removeAll hf hm
    exact ⟨_, _, rfl, hvalid, hrep⟩
  | setResizePolicy policy =>
    obtain ⟨hash', hrun, hvalid, hrep⟩ := h.setResizePolicy hf hm policy hsmall
    exact ⟨hash', _, by dsimp only [call]; rw [hrun]; rfl, hvalid, hrep⟩
  | get key => exact ⟨hash, m, by dsimp only [call]; rw [h.get hf hm]; rfl, h, hm⟩
  | find key =>
    obtain ⟨i, hfind, -⟩ := h.findElement hf key
    exact ⟨hash, m, by dsimp only [call]; rw [UHashtable.find, hfind]; rfl, h, hm⟩

theorem run_valid {f : KeyFunctions T} (hf : f.Consistent) (calls : List (Call T))
    {hash : UHashtable T}
    (h : hash.Valid f) (hm : hash.Represents f m) (hsmall : StaysSmall f (hash, m) calls) :
    ∃ hash' m', run f (hash, m) calls = some (hash', m') ∧ hash'.Valid f ∧
    hash'.Represents f m' := by
  induction calls generalizing hash m with
  | nil => exact ⟨hash, m, rfl, h, hm⟩
  | cons c calls ih =>
    obtain ⟨hfirst, hlater⟩ := hsmall
    obtain ⟨hash₁, m₁, hstep, hvalid, hrep⟩ := step_valid hf h hm hfirst
    rw [hstep] at hlater
    obtain ⟨hash', m', hrun, hresult⟩ := ih hvalid hrep hlater
    refine ⟨hash', m', ?_, hresult⟩
    rw [run, List.foldlM_cons, hstep]
    exact hrun

end Calls

theorem init_valid (f : KeyFunctions T) {primeIndex : Nat} (h : primeIndex < 27) :
    (init f primeIndex).Valid f ∧ (init f primeIndex).Represents f fun _ => none := by
  let blank : UHashtable T := ⟨[], 0, 0, 0, 0, 0, 0, 0⟩
  obtain ⟨hstored, hdead⟩ :=
    @UHashtable.allocate_stored T f (blank.internalSetResizePolicy .grow) primeIndex h
  refine ⟨⟨h, rfl, ⟨.grow, rfl, rfl, rfl, rfl⟩, hstored⟩, fun k v => ⟨nofun, ?_⟩⟩
  rintro ⟨e, ⟨i, hlive, -⟩, -⟩
  exact absurd hlive (hdead i)

/-! ## Iterations -/

/-- A removal during an iteration, by `uhash_remove` or by `uhash_removeElement`. -/
inductive Removal (T : Type)
  | key (k : T)
  | element (i : Nat)

def removeDuring (f : KeyFunctions T) (hash : UHashtable T) : Removal T → Option (UHashtable T)
  | .key k => (hash.remove f k true).map Prod.fst
  | .element i => some (hash.removeElement f i).1

/-- The elements that `uhash_nextElement` gives, with a list of removals behind each of them. -/
def iterate (f : KeyFunctions T) : Nat → UHashtable T → Int → List (List (Removal T)) →
    Option (List (UHashElement T))
  | 0, _, _, _ => none
  | fuel + 1, hash, pos, plan =>
    match hash.nextElement f pos with
    | none => some []
    | some i =>
      match (plan.headD []).foldlM (removeDuring f) hash with
      | none => none
      | some hash' => (iterate f fuel hash' i plan.tail).map (hash.element f i :: ·)

def Visited (f : KeyFunctions T) (hash : UHashtable T) (pos : Nat) : Removal T → Prop
  | .key k => ∀ i, hash.LiveAt f i → f.keyComparator k (hash.element f i).key = true → i ≤ pos
  | .element i => i ≤ pos

/-- `uhash_remove` makes the table smaller. The smallest table stays as it is. -/
def Shrinks (f : KeyFunctions T) (hash : UHashtable T) : Removal T → Prop
  | .key k => (∃ i, hash.LiveAt f i ∧ f.keyComparator k (hash.element f i).key = true) ∧
      hash.count - 1 < hash.lowWaterMark ∧ 0 < hash.primeIndex
  | .element _ => False

/-- All removals are of visited elements, and none makes the table smaller. -/
def KeepsPlaces (f : KeyFunctions T) (pos : Nat) : UHashtable T → List (Removal T) → Prop
  | _, [] => True
  | hash, r :: rs => Visited f hash pos r ∧ ¬ Shrinks f hash r ∧
      ∀ hash', removeDuring f hash r = some hash' → KeepsPlaces f pos hash' rs

def IterationKeepsPlaces (f : KeyFunctions T) :
    Nat → UHashtable T → Int → List (List (Removal T)) → Prop
  | 0, _, _, _ => True
  | fuel + 1, hash, pos, plan => ∀ i, hash.nextElement f pos = some i →
      KeepsPlaces f i hash (plan.headD []) ∧
        ∀ hash', (plan.headD []).foldlM (removeDuring f) hash = some hash' →
          IterationKeepsPlaces f fuel hash' i plan.tail

section Iteration

variable {f : KeyFunctions T} {hash : UHashtable T} {pos start : Nat}

theorem removeDuring_keeps (hf : f.Consistent) (h : hash.Valid f)
    (hm : hash.Represents f m) {r : Removal T} (hvisited : Visited f hash pos r)
    (hshrink : ¬ Shrinks f hash r) :
    ∃ hash' m', removeDuring f hash r = some hash' ∧ hash'.Valid f ∧ hash'.Represents f m' ∧
      hash'.length = hash.length ∧
        hash'.elements.drop (pos + 1) = hash.elements.drop (pos + 1) := by
  have hdrop : ∀ {i : Nat} (e : UHashElement T), i ≤ pos →
      (hash.elements.set i e).drop (pos + 1) = hash.elements.drop (pos + 1) :=
    fun e hle => List.drop_set_of_lt (Nat.lt_succ_of_le hle)
  cases r with
  | key k =>
    obtain ⟨hash', hrun, hvalid, hrep⟩ := h.remove hf hm k
    refine ⟨hash', _, by rw [removeDuring, hrun]; rfl, hvalid, hrep, ?_⟩
    obtain ⟨i, hfind, ⟨hlive, hcomp⟩ | hfree⟩ := h.findElement hf k
    · rw [UHashtable.remove, hfind] at hrun
      dsimp only at hrun
      rw [if_neg (UHashtable.not_isEmptyOrDeleted hlive),
        UHashtable.internalRemoveElement_eq] at hrun
      dsimp only at hrun
      have hplaces : hash' =
          hash.withElement i ⟨hashDeleted, f.emptytok, f.emptytok⟩ (hash.count - 1) := by
        split at hrun
        · next hlow =>
          have hmarks := h.waterMark_le
          have hsmallest : hash.primeIndex = 0 := by
            by_contra hpos
            exact hshrink ⟨⟨i, hlive, hcomp⟩, hlow, Nat.pos_of_ne_zero hpos⟩
          have hsame : (hash.withElement i ⟨hashDeleted, f.emptytok, f.emptytok⟩
              (hash.count - 1)).rehash f true = some (_, .zeroError) :=
            UHashtable.rehash_of_smallest (by dsimp only at hlow ⊢; omega) hsmallest
          rw [hsame, Option.map_some, Option.some.injEq, Prod.mk.injEq] at hrun
          exact hrun.1.symm
        · rw [Option.some.injEq, Prod.mk.injEq] at hrun
          exact hrun.1.symm
      rw [hplaces]
      exact ⟨rfl, hdrop _ (hvisited i hlive hcomp)⟩
    · rw [UHashtable.remove, hfind] at hrun
      dsimp only at hrun
      rw [if_pos (UHashtable.isEmptyOrDeleted_of_free hfree.free), Option.some.injEq,
        Prod.mk.injEq] at hrun
      rw [← hrun.1]
      exact ⟨rfl, rfl⟩
  | element i =>
    obtain ⟨hvalid, hrep⟩ := h.removeElement hf hm i
    refine ⟨_, _, rfl, hvalid, hrep, ?_⟩
    by_cases hlive : hash.LiveAt f i
    · rw [UHashtable.removeElement_of_live hlive]
      exact ⟨rfl, hdrop _ hvisited⟩
    · rw [UHashtable.removeElement_of_free hlive]
      exact ⟨rfl, rfl⟩

theorem foldlM_removeDuring (hf : f.Consistent) (rs : List (Removal T)) {hash : UHashtable T}
    (h : hash.Valid f) (hm : hash.Represents f m) (hkeeps : KeepsPlaces f pos hash rs) :
    ∃ hash' m', rs.foldlM (removeDuring f) hash = some hash' ∧ hash'.Valid f ∧
    hash'.Represents f m' ∧
      hash'.length = hash.length ∧
        hash'.elements.drop (pos + 1) = hash.elements.drop (pos + 1) := by
  induction rs generalizing hash m with
  | nil => exact ⟨hash, m, rfl, h, hm, rfl, rfl⟩
  | cons r rs ih =>
    obtain ⟨hvisited, hshrink, hrest⟩ := hkeeps
    obtain ⟨hash₁, m₁, hrun, hvalid, hrep, hlength, hdrop⟩ :=
      removeDuring_keeps hf h hm hvisited hshrink
    obtain ⟨hash', m', hrun', hvalid', hrep', hlength', hdrop'⟩ := ih hvalid hrep (hrest _ hrun)
    refine ⟨hash', m', ?_, hvalid', hrep', hlength'.trans hlength, hdrop'.trans hdrop⟩
    rw [List.foldlM_cons, hrun]
    exact hrun'

theorem filter_drop_of_next {i : Nat} (hle : start ≤ i) (hlive : hash.LiveAt f i)
    (hbefore : ∀ j, start ≤ j → j < i → ¬ hash.LiveAt f j) :
    (hash.elements.drop start).filter isLive =
      hash.element f i :: (hash.elements.drop (i + 1)).filter isLive := by
  have hi := hlive.lt
  induction hd : i - start generalizing start with
  | zero =>
    have heq : start = i := by omega
    have hget : isLive hash.elements[i] = true := by
      rw [← UHashtable.element_eq_getElem (f := f) hi]
      exact hlive
    rw [heq, List.drop_eq_getElem_cons hi, List.filter_cons_of_pos hget,
      UHashtable.element_eq_getElem hi]
  | succ d ih =>
    have hstart : start < hash.elements.length := by omega
    have hget : ¬ isLive hash.elements[start] = true := by
      rw [← UHashtable.element_eq_getElem (f := f) hstart]
      exact hbefore start (Nat.le_refl _) (by omega)
    rw [List.drop_eq_getElem_cons hstart, List.filter_cons_of_neg hget]
    exact ih (by omega) (fun j hj => hbefore j (by omega)) (by omega)

theorem filter_drop_of_none (hdead : ∀ j, start ≤ j → ¬ hash.LiveAt f j) :
    (hash.elements.drop start).filter isLive = [] := by
  rw [List.filter_eq_nil_iff]
  intro e he
  obtain ⟨j, hj, rfl⟩ := List.mem_iff_getElem.mp he
  rw [List.length_drop] at hj
  rw [List.getElem_drop, ← UHashtable.element_eq_getElem (f := f)]
  exact hdead (start + j) (by omega)

/-- An iteration that keeps the places visits every element behind its position once. -/
theorem iterate_eq (hf : f.Consistent) : ∀ (fuel : Nat) (pos : Int) (plan : List (List (Removal T)))
    {hash : UHashtable T} {m : T → Option T}, hash.Valid f → hash.Represents f m → -1 ≤ pos →
      pos < hash.length → hash.length < (pos + 1).toNat + fuel →
      IterationKeepsPlaces f fuel hash pos plan →
      iterate f fuel hash pos plan = some ((hash.elements.drop (pos + 1).toNat).filter isLive)
  | 0, pos, plan, hash, m, h, _, hpos, hlt, hfuel, _ => by omega
  | fuel + 1, pos, plan, hash, m, h, hm, hpos, _, hfuel, hkeeps => by
    rw [iterate]
    cases hnext : hash.nextElement f pos with
    | none =>
      rw [filter_drop_of_none (f := f)]
      intro j hj
      exact h.stored.nextElement_eq_none hnext (by omega)
    | some i =>
      obtain ⟨hlt, hlive, hbefore⟩ := UHashtable.nextElement_eq_some hpos hnext
      obtain ⟨hplaces, hrest⟩ := hkeeps i hnext
      obtain ⟨hash', m', hrun, hvalid, hrep, hlength, hdrop⟩ :=
        foldlM_removeDuring hf _ h hm hplaces
      have hi := hlive.lt
      rw [h.stored.elements] at hi
      have ih := iterate_eq hf fuel i plan.tail hvalid hrep (by omega) (by omega) (by omega)
        (hrest _ hrun)
      rw [hrun]
      dsimp only
      rw [ih, filter_drop_of_next (i := i) (by omega) hlive (fun j hj => hbefore j (by omega)),
        show ((i : Int) + 1).toNat = i + 1 by omega, hdrop]
      rfl

end Iteration

structure IsMap [DecidableEq T] (f : KeyFunctions T) (hash : UHashtable T) (m : T → Option T) :
    Prop where
  /-- `_uhash_find` ends with a slot. -/
  slot : ∀ key, ∃ i < hash.length, hash.findElement f key (f.keyHasher key) = some i
  get : ∀ key, hash.get f key = some ((m key).getD f.emptytok)
  find : ∀ key, (∃ i, hash.find f key = some (some i) ∧ hash.LiveAt f i ∧
      f.keyComparator key (hash.element f i).key = true ∧ m key = some (hash.element f i).value) ∨
    (hash.find f key = some none ∧ m key = none)
  /-- The live elements are the keys of the map, one for each. -/
  keys : ∀ key, m key ≠ none ↔ ∃ i, hash.LiveAt f i ∧ f.keyComparator key (hash.element f i).key =
    true
  unique : ∀ i j, hash.LiveAt f i → hash.LiveAt f j →
    f.keyComparator (hash.element f i).key (hash.element f j).key = true → i = j
  count : hash.count = (hash.elements.filter isLive).length
  count_lt : hash.count < hash.length
  /-- Only a new key can fail to be stored, when there is no other free slot. -/
  stores : ∀ key value hint, (¬ (hint = true ∧ value = f.emptytok) →
    hash.count > hash.highWaterMark →
      hash.primeIndex < 26) →
    ∃ hash' old status, hash.put f key value hint true = some (hash', old, status) ∧
      (status = .zeroError ∨ status = .memoryAllocationError ∧ m key = none ∧ hash'.count + 1 =
        hash'.length)
  /-- An iteration visits every element once, also while visited ones are removed. -/
  iterates : ∀ plan, IterationKeepsPlaces f (hash.length + 1) hash (-1) plan →
    iterate f (hash.length + 1) hash (-1) plan = some (hash.elements.filter isLive)

theorem UHashtable.Valid.isMap [DecidableEq T] {f : KeyFunctions T} (hf : f.Consistent)
    {hash : UHashtable T}
    (h : hash.Valid f) (hm : hash.Represents f m) : IsMap f hash m where
  slot key := by
    obtain ⟨i, hfind, ⟨hlive, -⟩ | hfree⟩ := h.findElement hf key
    · refine ⟨i, ?_, hfind⟩
      rw [← h.stored.elements]
      exact hlive.lt
    · exact ⟨i, hfree.lt, hfind⟩
  get := h.get hf hm
  find := h.find hf hm
  keys key := by
    rw [Option.ne_none_iff_exists']
    constructor
    · rintro ⟨v, hv⟩
      obtain ⟨e, ⟨i, hlive, rfl⟩, hcomp, -⟩ := (hm key v).mp hv
      exact ⟨i, hlive, hcomp⟩
    · rintro ⟨i, hlive, hcomp⟩
      exact ⟨_, hm.eq_some hlive hcomp⟩
  unique := h.stored.unique
  count := by rw [h.stored.count, List.countP_eq_length_filter]
  count_lt := h.stored.count_lt
  stores key value hint hsmall := by
    obtain ⟨hash', status, hrun, -, ⟨hstatus, -⟩ | ⟨hstatus, -, hnone, hfull⟩⟩ :=
      h.put hf hm key value hint hsmall
    · exact ⟨hash', _, status, hrun, Or.inl hstatus⟩
    · exact ⟨hash', _, status, hrun, Or.inr ⟨hstatus, hnone, hfull⟩⟩
  iterates plan hkeeps :=
    iterate_eq hf (hash.length + 1) (-1) plan h hm (Int.le_refl _) (by omega) (by omega) hkeeps

/-- In every run that does not enlarge the table to the largest prime, the table is the map of the
values that were put and not removed. -/
theorem run_isMap [DecidableEq T] {f : KeyFunctions T} (hf : f.Consistent) {primeIndex : Nat}
    (hindex : primeIndex < 27) {calls : List (Call T)}
    (hsmall : StaysSmall f (init f primeIndex, fun _ => none) calls) :
    ∃ hash m, run f (init f primeIndex, fun _ => none) calls = some (hash, m) ∧ IsMap f hash m := by
  obtain ⟨hvalid, hrep⟩ := init_valid f hindex
  obtain ⟨hash, m, hrun, hvalid', hrep'⟩ := run_valid hf calls hvalid hrep hsmall
  exact ⟨hash, m, hrun, hvalid'.isMap hf hrep'⟩

/-- Integers as keys, with their values as hash codes. -/
def integerKeys : KeyFunctions Nat := ⟨0, fun k => k, fun a b => a == b⟩

theorem integerKeys_consistent : integerKeys.Consistent where
  refl a := beq_self_eq_true a
  symm h := by
    rw [LawfulBEq.eq_of_beq h]
    exact beq_self_eq_true _
  trans h h' := by
    rw [LawfulBEq.eq_of_beq h]
    exact h'
  hash h := by rw [LawfulBEq.eq_of_beq h]

/-- Two keys, one of them put twice and one removed. -/
theorem run_isMap_integers : ∃ hash m, run integerKeys (init integerKeys 0, fun _ => none)
        [.put 1 5, .puti 2 6, .put 1 7, .remove 2] = some (hash, m) ∧ IsMap integerKeys hash m :=
  run_isMap integerKeys_consistent (by decide) (by decide)

/-- Under `U_GROW_AND_SHRINK` a removal of the element that was visited first lets the iteration
miss the other five. -/
theorem iteration_misses_elements :
    (run integerKeys (init integerKeys defaultPrimeIndex, fun _ => none)
      [.setResizePolicy .growAndShrink, .put 1 1, .put 2 2, .put 3 3, .put 4 4, .put 5 5,
      .put 6 6]).map
        (fun now => (now.1.count, (iterate integerKeys (now.1.length + 1) now.1 (-1) [[.key 1]]).map
          (List.map UHashElement.key))) = some (6, some [1]) := by
  decide

end Icu.UHash
