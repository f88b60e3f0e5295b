import Mathlib.Data.List.Basic

/-! # Locale attributes in a language tag

The part of `_appendKeywordsToLanguageTag` that splits the value of the keyword `attribute` at each
`'-'` and makes a sorted list of the pieces. The buffer for a piece keeps the piece before.
-/

namespace Icu.LanguageTag

variable {attrBuf rest : List UInt8}

def ulocKeywordAndValuesCapacity : Nat := 100

def sep : UInt8 := 0x2d

abbrev Piece := List UInt8

/-- `uprv_strcpy`: the string in a buffer -/
def cString (buf : List UInt8) : List UInt8 := buf.takeWhile (· != 0)

/-- `_addAttributeToList`, in alphabetical order; `none` for a duplicated attribute -/
def addAttributeToList : List Piece → Piece → Option (List Piece)
  | [], attr => some [attr]
  | cur :: next, attr =>
    if attr < cur then some (attr :: cur :: next)
    else if attr = cur then none
    else (addAttributeToList next attr).map (cur :: ·)

/-- The loop that copies one piece: what is left of the value, `attrBuf` and `attrBufLength` -/
def readAttribute : List UInt8 → List UInt8 → Nat → List UInt8 × List UInt8 × Nat
  | [], attrBuf, attrBufLength => ([], attrBuf, attrBufLength)
  | c :: rest, attrBuf, attrBufLength =>
    if c ≠ sep then readAttribute rest (attrBuf.set attrBufLength c) (attrBufLength + 1)
    else (rest, attrBuf, attrBufLength)

inductive Status
  | zeroError
  | illegalArgumentError
  | memoryAllocationError
  deriving DecidableEq

/-- A string is copied to an allocation of `attrBufLength + 1` bytes. -/
structure Copy where
  attrBufLength : Nat
  attrValue : List UInt8
  deriving DecidableEq

structure Result where
  status : Status
  firstAttr : List Piece
  copies : List Copy
  deriving DecidableEq

def Result.copied (copy : Copy) (r : Result) : Result := { r with copies := copy :: r.copies }

/-- The loop over the pieces, with memory for so many entries -/
def attributeLoop (strict : Bool) (memory : Nat) (rest attrBuf : List UInt8)
    (firstAttr : List Piece) :
    Result :=
  let (rest, attrBuf, attrBufLength) := readAttribute rest attrBuf 0
  if attrBufLength = 0 ∧ rest = [] then ⟨.zeroError, firstAttr, []⟩
  else
    let attrBuf := if attrBufLength > 0 then attrBuf.set attrBufLength 0 else attrBuf
    match memory with
    | 0 => ⟨.memoryAllocationError, firstAttr, []⟩
    | memory + 1 =>
      let attrValue := cString attrBuf
      match addAttributeToList firstAttr attrValue with
      | some firstAttr =>
        (attributeLoop strict memory rest attrBuf firstAttr).copied ⟨attrBufLength, attrValue⟩
      | none =>
        if strict then ⟨.illegalArgumentError, firstAttr, [⟨attrBufLength, attrValue⟩]⟩
        else (attributeLoop strict memory rest attrBuf firstAttr).copied ⟨attrBufLength, attrValue⟩

def splitAttributes (strict : Bool) (memory : Nat) (value : List UInt8) : Result :=
  if value.length > 0 then
    attributeLoop strict memory value (List.replicate ulocKeywordAndValuesCapacity 0) []
  else ⟨.zeroError, [], []⟩

/-- The loop ends, its copies fit, and the attributes are the distinct pieces that are not empty. -/
structure Result.Meets (r : Result) (strict : Bool) (memory : Nat) (value : List UInt8) : Prop where
  ends : value.length ≤ memory → r.status ≠ .memoryAllocationError
  copies : ∀ copy ∈ r.copies, copy.attrValue.length ≤ copy.attrBufLength
  attributes : strict = false → r.status ≠ .memoryAllocationError →
    r.firstAttr.Pairwise (· < ·) ∧ ∀ a, a ∈ r.firstAttr ↔ a ≠ [] ∧ a ∈ value.splitOn sep

/-- All pieces but an empty one at the end, and another one before that. -/
def seenPieces : List Piece → List Piece
  | [] => []
  | [p] => if p = [] then [] else [p]
  | p :: q :: ps => if p = [] ∧ q = [] ∧ ps = [] then [] else p :: seenPieces (q :: ps)

/-- The pieces that are copied: in strict mode until a piece was there before, and as far as there
is memory. -/
def copiedPieces (strict : Bool) : Nat → List Piece → List Piece → List Piece
  | 0, _, _ => []
  | _ + 1, _, [] => []
  | memory + 1, before, p :: ps =>
    p :: if strict ∧ p ∈ before then [] else copiedPieces strict memory (p :: before) ps

/-- An empty piece comes only after empty ones. -/
def NoEmptyAfter (ps : List Piece) : Prop := ps.Pairwise fun p q => q = [] → p = []

instance (ps : List Piece) : Decidable (NoEmptyAfter ps) :=
  inferInstanceAs (Decidable (ps.Pairwise fun p q => q = [] → p = []))

variable {p : Piece}

theorem readAttribute_of_not_mem (h : sep ∉ p) (rest attrBuf : List UInt8) (n : Nat) :
    readAttribute (p ++ sep :: rest) attrBuf n =
        (rest, (readAttribute p attrBuf n).2.1, n + p.length) ∧
      readAttribute p attrBuf n = ([], (readAttribute p attrBuf n).2.1, n + p.length) := by
  induction p generalizing attrBuf n with
  | nil => simp [readAttribute]
  | cons c p ih =>
    have hc : c ≠ sep := fun hc => h (by simp [hc])
    have hp := ih (fun hp => h (by simp [hp])) (attrBuf.set n c) (n + 1)
    simp only [List.cons_append, readAttribute, if_pos hc, List.length_cons]
    rw [hp.1, hp.2, Nat.add_assoc, Nat.add_comm 1]
    exact ⟨rfl, rfl⟩

theorem readAttribute_attrBuf {p : Piece} (h : sep ∉ p) {attrBuf : List UInt8} {n : Nat}
    (hroom : n + p.length ≤ attrBuf.length) :
    (readAttribute p attrBuf n).2.1.take (n + p.length) = attrBuf.take n ++ p ∧
      (readAttribute p attrBuf n).2.1.length = attrBuf.length := by
  induction p generalizing attrBuf n with
  | nil => simp [readAttribute]
  | cons c p ih =>
    have hc : c ≠ sep := fun hc => h (by simp [hc])
    rw [List.length_cons] at hroom
    have hp := @ih (fun hp => h (by simp [hp])) (attrBuf.set n c) (n + 1)
      (by rw [List.length_set]; omega)
    have htake : (attrBuf.set n c).take (n + 1) = attrBuf.take n ++ [c] := by
      rw [List.take_add_one, List.take_set_of_le (Nat.le_refl n), List.getElem?_set_self (by omega)]
      rfl
    simp only [readAttribute, if_pos hc, List.length_cons]
    rw [Nat.add_comm p.length, ← Nat.add_assoc, hp.1, hp.2, htake, List.append_assoc]
    simp

/-- A piece that is not empty is terminated, and an empty one leaves the string in the buffer. -/
theorem cString_attrBuf (h : sep ∉ p) (hzero : 0 ∉ p) (hroom : p.length < attrBuf.length) :
    cString (if p.length > 0 then (readAttribute p attrBuf 0).2.1.set p.length 0
      else (readAttribute p attrBuf 0).2.1) = if p = [] then cString attrBuf else p := by
  cases p with
  | nil => simp [readAttribute]
  | cons c p =>
    obtain ⟨htake, hlength⟩ := @readAttribute_attrBuf _ h attrBuf 0 (by omega)
    rw [Nat.zero_add, List.take_zero, List.nil_append] at htake
    rw [if_pos (by simp), if_neg (by simp), cString,
      List.set_eq_take_append_cons_drop, if_pos (by omega), htake,
      List.takeWhile_append_of_pos]
    · simp
    intro x hx
    rw [bne_iff_ne]
    rintro rfl
    exact hzero hx

theorem addAttributeToList_spec {l : List Piece} (h : l.Pairwise (· < ·)) (a : Piece) :
    (addAttributeToList l a = none ∧ a ∈ l) ∨
      ∃ l', addAttributeToList l a = some l' ∧ a ∉ l ∧ l'.Pairwise (· < ·) ∧
        ∀ x, x ∈ l' ↔ x = a ∨ x ∈ l := by
  induction l with
  | nil => exact .inr ⟨[a], rfl, by simp, by simp, by simp⟩
  | cons cur next ih =>
    obtain ⟨hcur, hnext⟩ := List.pairwise_cons.mp h
    rw [addAttributeToList]
    by_cases hlt : a < cur
    · rw [if_pos hlt]
      have hless : ∀ x ∈ cur :: next, a < x := by
        simp only [List.mem_cons, forall_eq_or_imp]
        exact ⟨hlt, fun x hx => List.lt_trans hlt (hcur x hx)⟩
      exact .inr ⟨_, rfl, fun hmem => List.lt_irrefl a (hless a hmem),
        List.pairwise_cons.mpr ⟨hless, h⟩, by simp⟩
    rw [if_neg hlt]
    by_cases heq : a = cur
    · exact .inl ⟨if_pos heq, by simp [heq]⟩
    rw [if_neg heq]
    have hgt : cur < a := by
      by_contra hge
      exact heq (List.le_antisymm (List.not_lt.mp hge) (List.not_lt.mp hlt))
    rcases ih hnext with ⟨hnone, hmem⟩ | ⟨l', hsome, hno, hsorted, hmem⟩
    · exact .inl ⟨by rw [hnone]; rfl, by simp [hmem]⟩
    refine .inr ⟨cur :: l', by rw [hsome]; rfl, by simp [heq, hno],
      List.pairwise_cons.mpr ⟨?_, hsorted⟩, ?_⟩
    · intro x hx
      rcases (hmem x).mp hx with rfl | hx
      · exact hgt
      · exact hcur x hx
    · intro x
      simp only [List.mem_cons, hmem]
      exact or_left_comm

def pieceLoop (strict : Bool) : Nat → Piece → List Piece → List Piece → Result
  | _, _, firstAttr, [] => ⟨.zeroError, firstAttr, []⟩
  | 0, _, firstAttr, _ :: _ => ⟨.memoryAllocationError, firstAttr, []⟩
  | memory + 1, last, firstAttr, p :: ps =>
    let attrValue := if p = [] then last else p
    match addAttributeToList firstAttr attrValue with
    | some firstAttr => (pieceLoop strict memory attrValue firstAttr ps).copied ⟨p.length,
      attrValue⟩
    | none =>
      if strict then ⟨.illegalArgumentError, firstAttr, [⟨p.length, attrValue⟩]⟩
      else (pieceLoop strict memory attrValue firstAttr ps).copied ⟨p.length, attrValue⟩

theorem splitOn_eq_nil_iff (rest : List UInt8) : rest.splitOn sep = [[]] ↔ rest = [] := by
  constructor
  · intro h
    have : [sep].intercalate (rest.splitOn sep) = rest := List.intercalate_splitOn sep
    rw [h] at this
    exact this.symm
  · rintro rfl
    rfl

theorem readAttribute_spec {rest : List UInt8} (hzero : 0 ∉ rest) {attrBuf : List UInt8}
    (hroom : rest.length < attrBuf.length) :
    ∃ p r attrBuf', readAttribute rest attrBuf 0 = (r, attrBuf', p.length) ∧
      (seenPieces (rest.splitOn sep) =
        if p = [] ∧ r = [] then [] else p :: seenPieces (r.splitOn sep)) ∧
      cString (if p.length > 0 then attrBuf'.set p.length 0 else attrBuf') =
        (if p = [] then cString attrBuf else p) ∧
      0 ∉ r ∧ (¬ (p = [] ∧ r = []) → r.length < rest.length) ∧ attrBuf'.length =
      attrBuf.length := by
  by_cases hsep : sep ∈ rest
  · obtain ⟨p, r, rfl, hp⟩ := List.eq_append_cons_of_mem hsep
    rw [List.length_append, List.length_cons] at hroom
    simp only [List.mem_append, List.mem_cons, not_or] at hzero
    have hread := (readAttribute_of_not_mem hp r attrBuf 0).1
    rw [Nat.zero_add] at hread
    refine ⟨p, r, _, hread, ?_, cString_attrBuf hp hzero.1 (by omega), hzero.2.2,
      fun _ => by simp; omega, (readAttribute_attrBuf hp (by omega)).2⟩
    rw [List.splitOn_append_cons_self_of_not_mem hp]
    cases hr : r.splitOn sep with
    | nil => exact absurd hr (List.splitOn_ne_nil _ _)
    | cons q qs =>
      have hempty := splitOn_eq_nil_iff r
      rw [hr, List.cons.injEq] at hempty
      rw [seenPieces]
      simp only [← hempty]
  · have hread := (readAttribute_of_not_mem hsep [] attrBuf 0).2
    rw [Nat.zero_add] at hread
    refine ⟨rest, [], _, hread, ?_, cString_attrBuf hsep hzero hroom, by simp,
      fun hsome => List.length_pos_of_ne_nil fun h => hsome ⟨h, rfl⟩,
      (readAttribute_attrBuf hsep (by omega)).2⟩
    rw [List.splitOn_eq_singleton hsep]
    simp [seenPieces]

theorem attributeLoop_eq (strict : Bool) {memory : Nat} (hzero : 0 ∉ rest)
    (hroom : rest.length < attrBuf.length) (firstAttr : List Piece) :
    attributeLoop strict memory rest attrBuf firstAttr =
      pieceLoop strict memory (cString attrBuf) firstAttr (seenPieces (rest.splitOn sep)) := by
  induction memory generalizing rest attrBuf firstAttr with
  | zero =>
    obtain ⟨p, r, attrBuf', hread, hpieces, -⟩ := readAttribute_spec hzero hroom
    rw [attributeLoop, hread, hpieces]
    simp only [List.length_eq_zero_iff]
    split <;> rfl
  | succ memory ih =>
    obtain ⟨p, r, attrBuf', hread, hpieces, hstring, hr, hle, hlength⟩ :=
      readAttribute_spec hzero hroom
    rw [attributeLoop, hread, hpieces]
    simp only [List.length_eq_zero_iff]
    by_cases hend : p = [] ∧ r = []
    · rw [if_pos hend, if_pos hend]
      rfl
    have hset : (if p.length > 0 then attrBuf'.set p.length 0 else attrBuf').length =
        attrBuf.length := by
      split
      · rw [List.length_set, hlength]
      · exact hlength
    have hshort := hle hend
    generalize (if p.length > 0 then attrBuf'.set p.length 0 else attrBuf') = buf at hstring hset ⊢
    rw [if_neg hend, if_neg hend, pieceLoop, hstring]
    simp only [ih hr (by omega : r.length < buf.length), hstring]

theorem length_seenPieces_le (hzero : 0 ∉ rest) :
    (seenPieces (rest.splitOn sep)).length ≤ rest.length := by
  induction hn : rest.length using Nat.strongRecOn generalizing rest with
  | _ n ih =>
    obtain ⟨p, r, -, -, hpieces, -, hr, hlt, -⟩ :=
      @readAttribute_spec rest hzero (List.replicate (n + 1) 0) (by simp [hn])
    rw [hpieces]
    split
    · simp
    · next hsome =>
      have hshort := hlt hsome
      have := ih r.length (by omega) hr rfl
      rw [List.length_cons]
      omega

theorem mem_seenPieces {x : Piece} (hx : x ≠ []) (ps : List Piece) :
    x ∈ seenPieces ps ↔ x ∈ ps := by
  induction ps using seenPieces.induct with
  | case1 => rfl
  | case2 => simp [seenPieces, hx]
  | case3 p hp => simp [seenPieces, hp]
  | case4 p q ps h =>
    obtain ⟨rfl, rfl, rfl⟩ := h
    simp [seenPieces, hx]
  | case5 p q ps h ih => rw [seenPieces, if_neg h, List.mem_cons, ih, ← List.mem_cons]

section Pieces

variable {strict : Bool} {memory : Nat} {last : Piece} {firstAttr ps : List Piece}

theorem value_eq (h : p = [] → last = []) : (if p = [] then last else p) = p := by
  split
  · next hp => rw [h hp, hp]
  · rfl

theorem noEmptyAfter_cons (h : p = [] → last = []) :
    NoEmptyAfter (last :: p :: ps) ↔ NoEmptyAfter (p :: ps) := by
  simp only [NoEmptyAfter, List.pairwise_cons, List.mem_cons, forall_eq_or_imp]
  constructor
  · exact fun hall => hall.2
  · exact fun hall => ⟨⟨h, fun q hq hempty => h (hall.1 q hq hempty)⟩, hall⟩

theorem status_of_memory (h : ps.length ≤ memory) :
    (pieceLoop strict memory last firstAttr ps).status ≠ .memoryAllocationError := by
  induction ps generalizing memory last firstAttr with
  | nil => simp [pieceLoop]
  | cons p ps ih =>
    cases memory with
    | zero => simp at h
    | succ memory =>
      rw [List.length_cons] at h
      simp only [pieceLoop]
      split
      · exact ih (by omega)
      split
      · simp
      · exact ih (by omega)

theorem status_of_few (h : memory < ps.length) :
    (pieceLoop false memory last firstAttr ps).status = .memoryAllocationError := by
  induction ps generalizing memory last firstAttr with
  | nil => simp at h
  | cons p ps ih =>
    cases memory with
    | zero => rfl
    | succ memory =>
      rw [List.length_cons] at h
      simp only [pieceLoop]
      split
      · exact ih (by omega)
      · exact ih (by omega)

/-- A copy does not fit if and only if it is made for an empty piece after one that is not empty. -/
theorem copies_iff (hsorted : firstAttr.Pairwise (· < ·)) {before : List Piece}
    (hbefore : ∀ x, x ∈ before ↔ x ∈ firstAttr) :
    (∀ copy ∈ (pieceLoop strict memory last firstAttr ps).copies,
      copy.attrValue.length ≤ copy.attrBufLength) ↔
        NoEmptyAfter (last :: copiedPieces strict memory before ps) := by
  induction ps generalizing memory last firstAttr before with
  | nil => cases memory <;> simp [pieceLoop, copiedPieces, NoEmptyAfter]
  | cons p ps ih =>
    cases memory with
    | zero => simp [pieceLoop, copiedPieces, NoEmptyAfter]
    | succ memory =>
      simp only [pieceLoop, copiedPieces]
      by_cases hstale : p = [] ∧ last ≠ []
      · obtain ⟨rfl, hlast⟩ := hstale
        have hlong : ¬ last.length ≤ 0 := by simpa using hlast
        refine iff_of_false (fun h => ?_) (fun h => ?_)
        · rw [if_pos rfl] at h
          revert h
          split
          · exact fun h => hlong (h ⟨0, last⟩ (by simp [Result.copied]))
          split
          · exact fun h => hlong (h ⟨0, last⟩ (by simp))
          · exact fun h => hlong (h ⟨0, last⟩ (by simp [Result.copied]))
        · exact hlast ((List.pairwise_cons.mp h).1 [] (by simp) rfl)
      have hempty : p = [] → last = [] := by
        intro hp
        by_contra hlast
        exact hstale ⟨hp, hlast⟩
      rw [value_eq hempty, noEmptyAfter_cons hempty]
      rcases addAttributeToList_spec hsorted p with ⟨hnone, hmem⟩ | ⟨l', hsome, hno, hl', hmem⟩
      · rw [hnone]
        by_cases hstrict : strict = true
        · simp [hstrict, (hbefore p).mpr hmem, NoEmptyAfter]
        have hgo : ¬ (strict = true ∧ p ∈ before) := fun h => hstrict h.1
        rw [if_neg hgo]
        have := @ih memory p firstAttr hsorted (p :: before) (fun x => by
          rw [List.mem_cons, hbefore]
          exact or_iff_right_of_imp fun h => h ▸ hmem)
        simpa [hstrict, Result.copied] using this
      · have hgo : ¬ (strict = true ∧ p ∈ before) := fun h => hno ((hbefore p).mp h.2)
        rw [hsome, if_neg hgo]
        have := @ih memory p l' hl' (p :: before) (fun x => by
          rw [List.mem_cons, hbefore, hmem])
        simpa [Result.copied] using this

theorem attributes_of_memory (hsorted : firstAttr.Pairwise (· < ·)) (hmemory : ps.length ≤ memory)
    (hempty : NoEmptyAfter (last :: ps)) :
    (pieceLoop false memory last firstAttr ps).firstAttr.Pairwise (· < ·) ∧
      ∀ x, x ∈ (pieceLoop false memory last firstAttr ps).firstAttr ↔ x ∈ firstAttr ∨ x ∈ ps := by
  induction ps generalizing memory last firstAttr with
  | nil => cases memory <;> simpa [pieceLoop] using hsorted
  | cons p ps ih =>
    cases memory with
    | zero => simp at hmemory
    | succ memory =>
      rw [List.length_cons] at hmemory
      have hp : p = [] → last = [] := (List.pairwise_cons.mp hempty).1 p (by simp)
      rw [noEmptyAfter_cons hp] at hempty
      simp only [pieceLoop, value_eq hp]
      rcases addAttributeToList_spec hsorted p with ⟨hnone, hmem⟩ | ⟨l', hsome, hno, hl', hmem⟩
      · rw [hnone]
        obtain ⟨hs, hm⟩ := ih hsorted (by omega : ps.length ≤ memory) hempty
        refine ⟨hs, fun x => (hm x).trans ?_⟩
        rw [List.mem_cons, or_left_comm]
        exact (or_iff_right_of_imp fun h => .inl (h ▸ hmem)).symm
      · rw [hsome]
        obtain ⟨hs, hm⟩ := ih hl' (by omega : ps.length ≤ memory) hempty
        refine ⟨hs, fun x => (hm x).trans ?_⟩
        rw [hmem, List.mem_cons, or_assoc, or_left_comm]

theorem copiedPieces_of_memory (h : ps.length ≤ memory) (before : List Piece) :
    copiedPieces false memory before ps = ps := by
  induction ps generalizing memory before with
  | nil => cases memory <;> rfl
  | cons p ps ih =>
    cases memory with
    | zero => simp at h
    | succ memory => simp [copiedPieces, ih (by simpa using h)]

end Pieces

/-- Exactly when the loop does what is wanted of it, for every value that is a string. -/
theorem splitAttributes_meets_iff {value : List UInt8} (hzero : 0 ∉ value)
    (hlength : value.length < ulocKeywordAndValuesCapacity) (strict : Bool) (memory : Nat) :
    (splitAttributes strict memory value).Meets strict memory value ↔
      NoEmptyAfter (copiedPieces strict memory [] (seenPieces (value.splitOn sep))) ∧
        (strict = false → (seenPieces (value.splitOn sep)).length ≤ memory →
          [] ∉ seenPieces (value.splitOn sep)) := by
  have hsplit : splitAttributes strict memory value =
      pieceLoop strict memory [] [] (seenPieces (value.splitOn sep)) := by
    rw [splitAttributes]
    split
    · exact attributeLoop_eq strict hzero (by simpa using hlength) []
    · next hempty =>
      rw [List.eq_nil_of_length_eq_zero (by omega : value.length = 0)]
      cases memory <;> rfl
  rw [hsplit]
  have hmembers := fun x hx => @mem_seenPieces x hx (value.splitOn sep)
  have hlong := length_seenPieces_le hzero
  generalize seenPieces (value.splitOn sep) = ps at hmembers hlong ⊢
  have hcopies := @copies_iff strict memory [] [] ps List.Pairwise.nil [] (fun _ => Iff.rfl)
  rw [NoEmptyAfter, List.pairwise_cons, and_iff_right (fun _ _ _ => rfl)] at hcopies
  constructor
  · intro h
    refine ⟨hcopies.mp h.copies, ?_⟩
    rintro rfl hmemory hempty
    have hall := hcopies.mp h.copies
    rw [copiedPieces_of_memory hmemory] at hall
    have hmem := (attributes_of_memory List.Pairwise.nil hmemory
      (List.pairwise_cons.mpr ⟨fun _ _ _ => rfl, hall⟩)).2 []
    have hno := (h.attributes rfl (status_of_memory hmemory)).2 []
    exact (hno.mp (hmem.mpr (.inr hempty))).1 rfl
  rintro ⟨hall, hnone⟩
  refine ⟨fun hmemory => status_of_memory (by omega), hcopies.mpr hall, ?_⟩
  rintro rfl hstatus
  have hmemory : ps.length ≤ memory := by
    by_contra hfew
    exact hstatus (status_of_few (by omega))
  rw [copiedPieces_of_memory hmemory] at hall
  obtain ⟨hsorted, hmem⟩ := attributes_of_memory List.Pairwise.nil hmemory
    (List.pairwise_cons.mpr ⟨fun _ _ _ => rfl, hall⟩)
  refine ⟨hsorted, fun a => (hmem a).trans ?_⟩
  by_cases ha : a = []
  · simp [ha, hnone rfl hmemory]
  · simp [ha, hmembers a ha]

/-- `"b-a-"` -/
theorem splitAttributes_meets_two :
    (splitAttributes true 4 [0x62, 0x2d, 0x61, 0x2d]).Meets true 4 [0x62, 0x2d, 0x61, 0x2d] :=
  (splitAttributes_meets_iff (by decide) (by decide) true 4).mpr ⟨by decide, by decide⟩

/-- `"foo--a"`: the string `"foo"` is copied to an allocation of one byte. -/
theorem splitAttributes_overflow :
    ⟨0, [0x66, 0x6f, 0x6f]⟩ ∈
      (splitAttributes false 6 [0x66, 0x6f, 0x6f, 0x2d, 0x2d, 0x61]).copies ∧
      ¬ (splitAttributes false 6 [0x66, 0x6f, 0x6f, 0x2d, 0x2d, 0x61]).Meets false 6
        [0x66, 0x6f, 0x6f, 0x2d, 0x2d, 0x61] := by
  have hmem : ⟨0, [0x66, 0x6f, 0x6f]⟩ ∈
      (splitAttributes false 6 [0x66, 0x6f, 0x6f, 0x2d, 0x2d, 0x61]).copies := by decide
  exact ⟨hmem, fun h => absurd (h.copies _ hmem) (by decide)⟩

end Icu.LanguageTag
