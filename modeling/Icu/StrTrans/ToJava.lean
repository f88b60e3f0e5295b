import Icu.StrTrans.FromJava
import Icu.StrTrans.ToUtf8

/-! # `u_strToJavaModifiedUTF8`

Each unit has one to three bytes, also a surrogate, and U+0000 has two. The locals are those of
`u_strToUTF8WithSub`, without substitutions.
-/

namespace Icu.StrTrans

open Lib Utf16 Utf8

variable {t : List UInt8} {p : Nat}

def javaBytes (ch : Nat) : List UInt8 :=
  if ch ≤ 0x7f ∧ ch ≠ 0 then [UInt8.ofNat ch]
  else if ch ≤ 0x7ff then twoBytes ch
  else threeBytes ch

/-- `u_strlen(src)` -/
def uStrlen (s : List UInt16) (pSrc : Nat) : Option Nat :=
  let length := (s.drop pSrc).findIdx (· == 0)
  if pSrc + length < s.length then some length else none

namespace Encoding

section Model

variable (s : List UInt16) (destCapacity : Nat)

/-- `while((ch=*src)<=0x7f && ch != 0 && pDest<pDestLimit)`, with the last `ch` -/
def toJavaStartLoop : Nat → Encoding → Option (Nat × Encoding)
  | 0, _ => none
  | fuel + 1, st => do
    let ch ← unitAt s st.pSrc
    if ch ≤ 0x7f ∧ ch ≠ 0 ∧ st.dest.length < destCapacity then
      let st ← put destCapacity [UInt8.ofNat ch] { st with pSrc := st.pSrc + 1 }
      toJavaStartLoop fuel st
    else return (ch, st)

/-- `while(src < pSrcLimit && (ch = *src) <= 0x7f && ch != 0)` -/
def toJavaAsciiLoop (pSrcLimit : Nat) : Nat → Encoding → Option Encoding
  | 0, _ => none
  | fuel + 1, st =>
    if st.pSrc < pSrcLimit then do
      let ch ← unitAt s st.pSrc
      if ch ≤ 0x7f ∧ ch ≠ 0 then
        let st ← put destCapacity [UInt8.ofNat ch] { st with pSrc := st.pSrc + 1 }
        toJavaAsciiLoop pSrcLimit fuel st
      else return st
    else some st

/-- The fast ASCII loop, if the destination has room for the rest of the source -/
def toJavaAsciiRun (pSrcLimit : Nat) (st : Encoding) : Option Encoding :=
  if destCapacity - st.dest.length ≥ pSrcLimit - st.pSrc ∧ pSrcLimit - st.pSrc > 0 then do
    let ch ← unitAt s st.pSrc
    if ch ≤ 0x7f then toJavaAsciiLoop s destCapacity pSrcLimit (s.length + 1) st else return st
  else some st

/-- `do { ... } while(--count > 0);` for a positive `count` -/
def toJavaInnerLoop : Nat → Encoding → Option Encoding
  | 0, st => some st
  | count + 1, st => do
    let ch ← unitAt s st.pSrc
    let st ← put destCapacity (javaBytes ch) { st with pSrc := st.pSrc + 1 }
    toJavaInnerLoop count st

/-- `for(;;)`, without ongoing checking for `pSrcLimit` and `pDestLimit` -/
def toJavaFastLoop (pSrcLimit : Nat) : Nat → Encoding → Option Encoding
  | 0, _ => none
  | fuel + 1, st => do
    let st ← toJavaAsciiRun s destCapacity pSrcLimit st
    let count := min ((destCapacity - st.dest.length) / 3) (pSrcLimit - st.pSrc)
    if count < 3 then return st
    else
      let st ← toJavaInnerLoop s destCapacity count st
      toJavaFastLoop pSrcLimit fuel st

def toJavaWriteStep (ch : Nat) (st : Encoding) : Option EncodingStep :=
  let st := { st with pSrc := st.pSrc + 1 }
  if ch ≤ 0x7f ∧ ch ≠ 0 then putOrStop destCapacity 1 [UInt8.ofNat ch] st
  else if ch ≤ 0x7ff then putOrStop destCapacity 2 (twoBytes ch) st
  else putOrStop destCapacity 3 (threeBytes ch) st

/-- The body of the loop that only counts -/
def toJavaCountStep (ch : Nat) (st : Encoding) : Option EncodingStep :=
  let st := { st with pSrc := st.pSrc + 1 }
  if ch ≤ 0x7f ∧ ch ≠ 0 then some (.go { st with reqLength := int32 (st.reqLength + 1) })
  else if ch ≤ 0x7ff then some (.go { st with reqLength := int32 (st.reqLength + 2) })
  else some (.go { st with reqLength := int32 (st.reqLength + 3) })

def toJavaLoops (pSrcLimit : Nat) (st : Encoding) : Option (Except Encoding Encoding) :=
  andThen
    (andThen ((toJavaFastLoop s destCapacity pSrcLimit (s.length + 1) st).map .ok)
      (countedLoop s pSrcLimit (toJavaWriteStep destCapacity) (s.length + 1)))
    (countedLoop s pSrcLimit toJavaCountStep (s.length + 1))

end Model

end Encoding

/-- The part of the function behind the loops. None of them returns from the function. -/
def finishJava (destCapacity : Int) (error : UErrorCode) : Except Encoding Encoding → EncodingResult
  | .ok st | .error st =>
    let reqLength := int32 (st.reqLength + st.dest.length)
    let (dest, error) := uTerminateChars st.dest destCapacity reqLength error
    ⟨dest, some reqLength, none, error⟩

/-- `u_strToJavaModifiedUTF8(dest, destCapacity, pDestLength, src, srcLength, pErrorCode)`, where
`none` is a `NULL` source -/
def uStrToJavaModifiedUTF8 (destIsNull : Bool) (destCapacity : Int) (src : Option (List UInt16))
    (srcLength : Int) (error : UErrorCode) : Option EncodingResult :=
  if ¬ error.isSuccess then some ⟨[], none, none, error⟩
  else if (src = none ∧ srcLength ≠ 0) ∨ srcLength < -1 ∨ (destIsNull ∧ destCapacity ≠ 0) ∨
      destCapacity < 0 then
    some ⟨[], none, none, .illegalArgumentError⟩
  else
    let s := src.getD []
    let st : Encoding := ⟨0, [], 0, 0⟩
    if srcLength = -1 then do
      let (ch, st) ← Encoding.toJavaStartLoop s destCapacity.toNat (s.length + 1) st
      if ch = 0 then return finishJava destCapacity error (.ok st)
      else
        let length ← uStrlen s st.pSrc
        return finishJava destCapacity error
          (← Encoding.toJavaLoops s destCapacity.toNat (st.pSrc + length) st)
    else
      (Encoding.toJavaLoops s destCapacity.toNat srcLength.toNat st).map
        (finishJava destCapacity error)

def javaCharacters (s : List UInt16) : List (List UInt8) := s.map fun u => javaBytes u.toNat

/-- What the caller gets if the length of the encoding is an `int32_t`. -/
def javaEncoding (s : List UInt16) (destCapacity : Int) (error : UErrorCode) : EncodingResult :=
  let length := (javaCharacters s).flatten.length
  { dest := fitting destCapacity.toNat (javaCharacters s) ++ if length < destCapacity then [0]
    else []
    destLength := some length
    numSubstitutions := none
    error := (uTerminateChars [] destCapacity length error).2 }

/-- `u_strToJavaModifiedUTF8`, and then `u_strFromJavaModifiedUTF8WithSub` of its result. -/
def toJavaAndBack (destCapacity destCapacity' : Int) (s : List UInt16) (subchar : Int)
    (error : UErrorCode) : Option Result := do
  let r ← uStrToJavaModifiedUTF8 false destCapacity (some s) s.length error
  uStrFromJavaModifiedUTF8WithSub false destCapacity' (some r.text) r.text.length subchar r.error

def javaPrefix (s : List UInt16) (n : Nat) : List UInt8 := ((javaCharacters s).take n).flatten

variable {s : List UInt16} {n ch : Nat}

theorem lt_of_unitAt (h : unitAt s n = some ch) : n < s.length := by
  obtain ⟨u, hu, -⟩ := Option.map_eq_some_iff.mp h
  exact (List.getElem?_eq_some_iff.mp hu).1

theorem exists_unitAt (h : n < s.length) : ∃ ch, unitAt s n = some ch := by
  simp [unitAt, h]

theorem javaPrefix_succ (h : unitAt s n = some ch) :
    javaPrefix s (n + 1) = javaPrefix s n ++ javaBytes ch := by
  obtain ⟨u, hu, rfl⟩ := Option.map_eq_some_iff.mp h
  simp [javaPrefix, javaCharacters, List.take_add_one, hu]

theorem length_javaBytes (ch : Nat) : 1 ≤ (javaBytes ch).length ∧ (javaBytes ch).length ≤ 3 := by
  unfold javaBytes
  split
  · simp
  · split <;> simp [twoBytes, threeBytes]

theorem length_javaPrefix_le {m : Nat} (h : n ≤ m) :
    (javaPrefix s n).length ≤ (javaPrefix s m).length := by
  rw [javaPrefix, javaPrefix, ← Nat.add_sub_of_le h, List.take_add, List.flatten_append,
    List.length_append]
  omega

theorem javaPrefix_length (s : List UInt16) :
    javaPrefix s s.length = (javaCharacters s).flatten := by
  rw [javaPrefix, List.take_of_length_le (by simp [javaCharacters])]

theorem fitting_javaCharacters {capacity : Nat} (hn : n ≤ s.length)
    (hfits : (javaPrefix s n).length ≤ capacity)
    (hfull : n < s.length → capacity < (javaPrefix s (n + 1)).length) :
    fitting capacity (javaCharacters s) = javaPrefix s n := by
  rw [← List.take_append_drop n (javaCharacters s), fitting_append hfits]
  rcases Nat.eq_or_lt_of_le hn with rfl | hlt
  · rw [List.drop_of_length_le (by simp [javaCharacters]), fitting, List.append_nil]
    rfl
  have hch : unitAt s n = some s[n].toNat := by simp [unitAt, hlt]
  have hover := hfull hlt
  rw [javaPrefix_succ hch, List.length_append] at hover
  have hdrop : (javaCharacters s).drop n =
      javaBytes s[n].toNat :: (javaCharacters s).drop (n + 1) := by
    rw [List.drop_eq_getElem_cons (by simpa [javaCharacters] using hlt)]
    simp [javaCharacters]
  rw [hdrop, fitting_full (by change capacity - (javaPrefix s n).length < _; omega),
    List.append_nil]
  rfl

namespace Encoding

variable {fuel : Nat}

/-- The bytes of the first `n` units were written, and those of the others before `pSrc` were
counted because the next one does not fit. -/
structure Wrote (s : List UInt16) (destCapacity n : Nat) (st : Encoding) : Prop where
  le : n ≤ st.pSrc
  source : st.pSrc ≤ s.length
  dest : st.dest = javaPrefix s n
  fits : st.dest.length ≤ destCapacity
  full : n < st.pSrc → destCapacity < (javaPrefix s (n + 1)).length
  reqLength : st.reqLength = int32 ((javaPrefix s st.pSrc).length - (javaPrefix s n).length : Int)

variable {destCapacity : Nat} {st : Encoding}

theorem Wrote.put (h : st.Wrote s destCapacity st.pSrc) (hch : unitAt s st.pSrc = some ch)
    (hroom : st.dest.length + (javaBytes ch).length ≤ destCapacity) :
    ∃ st', put destCapacity (javaBytes ch) { st with pSrc := st.pSrc + 1 } = some st' ∧
      st'.Wrote s destCapacity st'.pSrc ∧ st'.pSrc = st.pSrc + 1 ∧
      st'.dest.length = st.dest.length + (javaBytes ch).length := by
  have hlt := lt_of_unitAt hch
  have hzero : st.reqLength = 0 := by simp [h.reqLength, int32]
  refine ⟨_, if_pos hroom, ⟨Nat.le_refl _, hlt, ?_, ?_, ?_, ?_⟩, rfl, by simp⟩
  · simp [javaPrefix_succ hch, h.dest]
  · simpa using hroom
  · simp
  · simp [hzero, int32]

theorem Wrote.count (h : st.Wrote s destCapacity n) (hch : unitAt s st.pSrc = some ch)
    (hfull : destCapacity < (javaPrefix s (n + 1)).length) : Wrote s destCapacity n { st with
      pSrc := st.pSrc + 1, reqLength := int32 (st.reqLength + (javaBytes ch).length) } := by
  have hlt := lt_of_unitAt hch
  refine ⟨Nat.le_succ_of_le h.le, hlt, h.dest, h.fits, fun _ => hfull, ?_⟩
  rw [h.reqLength, javaPrefix_succ hch, List.length_append, int32, int32, Int.bmod_add_bmod, int32,
    Int.natCast_add, sub_add_eq_add_sub]

theorem Wrote.stop (h : st.Wrote s destCapacity st.pSrc) (hch : unitAt s st.pSrc = some ch)
    (hfull : destCapacity < st.dest.length + (javaBytes ch).length) : Wrote s destCapacity st.pSrc
      { st with pSrc := st.pSrc + 1, reqLength := ((javaBytes ch).length : Nat) } := by
  have hzero : st.reqLength = 0 := by simp [h.reqLength, int32]
  have hle := (length_javaBytes ch).2
  have hcount :=
    h.count hch (by rw [javaPrefix_succ hch, List.length_append, ← h.dest]; exact hfull)
  rwa [hzero, Int.zero_add, int32_of_lt (by omega)] at hcount

theorem toJavaWriteStep_eq (ch : Nat) (st : Encoding) : toJavaWriteStep destCapacity ch st =
    putOrStop destCapacity (javaBytes ch).length (javaBytes ch)
    { st with pSrc := st.pSrc + 1 } := by
  unfold toJavaWriteStep javaBytes
  split
  · rfl
  · split <;> rfl

theorem toJavaCountStep_eq (ch : Nat) (st : Encoding) : toJavaCountStep ch st = some (.go { st with
    pSrc := st.pSrc + 1, reqLength := int32 (st.reqLength + (javaBytes ch).length) }) := by
  unfold toJavaCountStep javaBytes
  split
  · rfl
  · split <;> rfl

/-! ## Loops -/

theorem toJavaWriteLoop_spec (h : st.Wrote s destCapacity st.pSrc)
    (hfuel : s.length - st.pSrc < fuel) :
    ∃ st' n, countedLoop s s.length (toJavaWriteStep destCapacity) fuel st = some (.ok st') ∧
      st'.Wrote s destCapacity n ∧ (st'.pSrc = s.length ∨ n < st'.pSrc) := by
  induction fuel generalizing st with
  | zero => omega
  | succ fuel ih =>
    rcases Nat.eq_or_lt_of_le h.source with hend | hlt
    · exact ⟨st, st.pSrc, countedLoop_isLoop.atEnd fuel st hend, h, .inl hend⟩
    obtain ⟨ch, hch⟩ := exists_unitAt hlt
    rw [countedLoop_isLoop.next fuel st ch hlt hch, toJavaWriteStep_eq, putOrStop]
    by_cases hroom : destCapacity - st.dest.length ≥ (javaBytes ch).length
    · have hpos := (length_javaBytes ch).1
      obtain ⟨st', hput, hwrote, hnext, -⟩ := h.put hch (by omega)
      rw [if_pos hroom, hput]
      exact ih hwrote (by omega)
    · rw [if_neg hroom]
      exact ⟨_, _, rfl, h.stop hch (by omega), .inr (Nat.lt_succ_self _)⟩

theorem toJavaCountLoop_spec (h : st.Wrote s destCapacity n)
    (hsome : st.pSrc = s.length ∨ n < st.pSrc) (hfuel : s.length - st.pSrc < fuel) :
    ∃ st', countedLoop s s.length toJavaCountStep fuel st = some (.ok st') ∧
      st'.Wrote s destCapacity n ∧ st'.pSrc = s.length := by
  induction fuel generalizing st with
  | zero => omega
  | succ fuel ih =>
    rcases Nat.eq_or_lt_of_le h.source with hend | hlt
    · exact ⟨st, countedLoop_isLoop.atEnd fuel st hend, h, hend⟩
    obtain ⟨ch, hch⟩ := exists_unitAt hlt
    have hn : n < st.pSrc := hsome.resolve_left (by omega)
    rw [countedLoop_isLoop.next fuel st ch hlt hch, toJavaCountStep_eq]
    exact ih (h.count hch (h.full hn)) (.inr (Nat.lt_succ_of_lt hn)) (by dsimp only; omega)

section

variable (h : st.Wrote s destCapacity st.pSrc)
include h

theorem toJavaAsciiLoop_spec
    (hroom : s.length - st.pSrc ≤ destCapacity - st.dest.length)
    (hfuel : s.length - st.pSrc < fuel) :
    ∃ st', toJavaAsciiLoop s destCapacity s.length fuel st = some st' ∧
      st'.Wrote s destCapacity st'.pSrc ∧ st.pSrc ≤ st'.pSrc := by
  induction fuel generalizing st with
  | zero => omega
  | succ fuel ih =>
    rw [toJavaAsciiLoop]
    by_cases hlt : st.pSrc < s.length
    · obtain ⟨ch, hch⟩ := exists_unitAt hlt
      have hfits := h.fits
      rw [if_pos hlt, hch, Option.bind_eq_bind, Option.bind_some]
      by_cases hascii : ch ≤ 0x7f ∧ ch ≠ 0
      · have hbytes : javaBytes ch = [UInt8.ofNat ch] := if_pos hascii
        have hone : (javaBytes ch).length = 1 := by rw [hbytes]; rfl
        obtain ⟨st', hput, hwrote, hnext, hlength⟩ := h.put hch (by omega)
        rw [hbytes] at hput
        rw [if_pos hascii, hput, Option.bind_eq_bind, Option.bind_some]
        obtain ⟨st'', hrun, hwrote', hle⟩ := ih hwrote (by omega) (by omega)
        exact ⟨st'', hrun, hwrote', by omega⟩
      · rw [if_neg hascii]
        exact ⟨st, rfl, h, Nat.le_refl _⟩
    · rw [if_neg hlt]
      exact ⟨st, rfl, h, Nat.le_refl _⟩

theorem toJavaAsciiRun_spec : ∃ st', toJavaAsciiRun s destCapacity s.length st = some st' ∧
      st'.Wrote s destCapacity st'.pSrc ∧ st.pSrc ≤ st'.pSrc := by
  rw [toJavaAsciiRun]
  split
  · next hroom =>
    obtain ⟨ch, hch⟩ := exists_unitAt (show st.pSrc < s.length by omega)
    rw [hch, Option.bind_eq_bind, Option.bind_some]
    split
    · exact toJavaAsciiLoop_spec h hroom.1 (by omega)
    · exact ⟨st, rfl, h, Nat.le_refl _⟩
  · exact ⟨st, rfl, h, Nat.le_refl _⟩

theorem toJavaInnerLoop_spec {count : Nat}
    (hroom : 3 * count ≤ destCapacity - st.dest.length) (hcount : count ≤ s.length - st.pSrc) :
    ∃ st', toJavaInnerLoop s destCapacity count st = some st' ∧
      st'.Wrote s destCapacity st'.pSrc ∧ st'.pSrc = st.pSrc + count := by
  induction count generalizing st with
  | zero => exact ⟨st, rfl, h, rfl⟩
  | succ count ih =>
    obtain ⟨ch, hch⟩ := exists_unitAt (show st.pSrc < s.length by omega)
    have hle := (length_javaBytes ch).2
    have hfits := h.fits
    obtain ⟨st', hput, hwrote, hnext, hlength⟩ := h.put hch (by omega)
    rw [toJavaInnerLoop, hch, Option.bind_eq_bind, Option.bind_some, hput, Option.bind_eq_bind,
      Option.bind_some]
    obtain ⟨st'', hrun, hwrote', heq⟩ := ih hwrote (by omega) (by omega)
    exact ⟨st'', hrun, hwrote', by omega⟩

end

theorem toJavaFastLoop_spec {fuel : Nat} (h : st.Wrote s destCapacity st.pSrc)
    (hfuel : s.length - st.pSrc < fuel) :
    ∃ st', toJavaFastLoop s destCapacity s.length fuel st = some st' ∧
      st'.Wrote s destCapacity st'.pSrc := by
  induction fuel generalizing st with
  | zero => omega
  | succ fuel ih =>
    obtain ⟨st₁, hrun, hwrote, hle⟩ := toJavaAsciiRun_spec h
    rw [toJavaFastLoop, hrun, Option.bind_eq_bind, Option.bind_some]
    dsimp only
    split
    · exact ⟨st₁, rfl, hwrote⟩
    obtain ⟨st₂, hinner, hwrote', hnext⟩ := toJavaInnerLoop_spec hwrote
      (show 3 * min ((destCapacity - st₁.dest.length) / 3) (s.length - st₁.pSrc) ≤ _ by omega)
      (by omega)
    rw [hinner, Option.bind_some]
    exact ih hwrote' (by omega)

theorem toJavaLoops_spec (s : List UInt16) (destCapacity : Nat) :
    ∃ st n, toJavaLoops s destCapacity s.length ⟨0, [], 0, 0⟩ = some (.ok st) ∧
      st.Wrote s destCapacity n ∧ st.pSrc = s.length := by
  have hstart : Wrote s destCapacity 0 ⟨0, [], 0, 0⟩ :=
    ⟨Nat.le_refl 0, Nat.zero_le _, rfl, Nat.zero_le _, by simp, by simp [int32]⟩
  obtain ⟨st₁, hfast, h₁⟩ := @toJavaFastLoop_spec s destCapacity ⟨0, [], 0, 0⟩
    (s.length + 1) hstart (show s.length - 0 < s.length + 1 by omega)
  obtain ⟨st₂, n, hwrite, h₂, hend⟩ := toJavaWriteLoop_spec h₁
    (show s.length - st₁.pSrc < s.length + 1 by omega)
  obtain ⟨st₃, hcount, h₃, hdone⟩ := toJavaCountLoop_spec h₂ hend
    (show s.length - st₂.pSrc < s.length + 1 by omega)
  refine ⟨st₃, n, ?_, h₃, hdone⟩
  rw [toJavaLoops, hfast]
  simp only [andThen, Option.map_some, Option.bind_eq_bind, Option.bind_some, hwrite, hcount]

end Encoding

section Encode

variable {destIsNull : Bool} {destCapacity : Int} {error : UErrorCode}

theorem counted_toJava_iff (h0 : 0 ≤ destCapacity) (hcapacity : destCapacity < 2 ^ 31)
    (hnull : destIsNull = true → destCapacity = 0) (hsuccess : error.isSuccess = true) :
    (∃ r, uStrToJavaModifiedUTF8 destIsNull destCapacity (some s) s.length error = some r ∧
      r.destLength = some (int32 (javaCharacters s).flatten.length)) ∧
    (uStrToJavaModifiedUTF8 destIsNull destCapacity (some s) s.length error =
        some (javaEncoding s destCapacity error) ↔ (javaCharacters s).flatten.length < 2 ^ 31) := by
  have hlegal : ¬ ((some s = none ∧ (s.length : Int) ≠ 0) ∨ (s.length : Int) < -1 ∨
      (destIsNull = true ∧ destCapacity ≠ 0) ∨ destCapacity < 0) := by
    rintro (⟨h, -⟩ | h | ⟨h, h'⟩ | h)
    · cases h
    · omega
    · exact h' (hnull h)
    · omega
  obtain ⟨st, n, hloops, h, hend⟩ := Encoding.toJavaLoops_spec s destCapacity.toNat
  have hfitting : fitting destCapacity.toNat (javaCharacters s) = st.dest := by
    rw [h.dest]
    exact fitting_javaCharacters (hend ▸ h.le) (h.dest ▸ h.fits) (fun hn => h.full (by omega))
  have hlength : int32 (st.reqLength + st.dest.length) =
    int32 (javaCharacters s).flatten.length := by
    rw [h.reqLength, hend, javaPrefix_length, ← h.dest, int32_add_left, Int.sub_add_cancel]
  have hresult : uStrToJavaModifiedUTF8 destIsNull destCapacity (some s) s.length error =
      some (finishJava destCapacity error (.ok st)) := by
    rw [uStrToJavaModifiedUTF8, if_neg (by simp [hsuccess]), if_neg hlegal]
    simp only [Option.getD_some]
    rw [if_neg (by omega), Int.toNat_natCast, hloops]
    rfl
  rw [hresult, Option.some.injEq, javaEncoding, hfitting, finishJava, hlength]
  refine ⟨⟨_, rfl, rfl⟩, fun heq => ?_, fun hsmall => ?_⟩
  · have hreported := congrArg EncodingResult.destLength heq
    simp only [Option.some.injEq] at hreported
    have hbound : int32 ((javaCharacters s).flatten.length : Int) < 2 ^ 31 :=
      Int.bmod_lt (by decide)
    omega
  have hall : ((javaCharacters s).flatten.length : Int) < destCapacity →
      st.dest.length = ((javaCharacters s).flatten.length : Int) := by
    intro hlt
    rcases Nat.eq_or_lt_of_le h.le with hn | hn
    · rw [h.dest, hn, hend, javaPrefix_length]
    have hfull := h.full hn
    have hle := @length_javaPrefix_le s (n + 1) s.length (by omega)
    rw [javaPrefix_length] at hle
    omega
  rw [int32_of_lt hsmall, uTerminateChars_eq hsuccess hall]
  generalize (javaCharacters s).flatten.length = length
  simp

end Encode

/-! ## The way back -/

theorem toNat_javaBytes {ch : Nat} (hch : ch < 0x10000) : (javaBytes ch).map UInt8.toNat =
    if ch ≤ 0x7f ∧ ch ≠ 0 then [ch] else if ch ≤ 0x7ff then [ch / 0x40 + 0xc0, ch % 0x40 + 0x80]
    else [ch / 0x1000 + 0xe0, ch / 0x40 % 0x40 + 0x80, ch % 0x40 + 0x80] := by
  unfold javaBytes
  split
  · rw [List.map_singleton, toNat_ofNat_byte (by omega)]
  split
  · exact toNat_twoBytes (by omega)
  · exact toNat_threeBytes hch

theorem byte_javaBytes {ch : Nat} (hch : ch < 0x10000) {b : UInt8} (hb : b ∈ javaBytes ch) :
    b ≠ 0 ∧ b.toNat < 0xf0 := by
  have hmem := List.mem_map_of_mem (f := UInt8.toNat) hb
  rw [toNat_javaBytes hch] at hmem
  have hrange : b.toNat ≠ 0 ∧ b.toNat < 0xf0 := by
    split at hmem
    · simp only [List.mem_singleton] at hmem
      omega
    split at hmem
    · simp only [List.mem_cons, List.not_mem_nil, or_false] at hmem
      omega
    · simp only [List.mem_cons, List.not_mem_nil, or_false] at hmem
      omega
  refine ⟨?_, hrange.2⟩
  rintro rfl
  exact hrange.1 rfl

theorem javaCodePoint_javaBytes {rest : List UInt8} {ch : Nat} (hch : ch < 0x10000)
    (h : t.drop p = javaBytes ch ++ rest) : IsUnit t p (p + (javaBytes ch).length) ∧
      javaCodePoint t p (p + (javaBytes ch).length) = some ch := by
  have hbytes := bytesAt_of_drop h
  have hlength : (javaBytes ch).length = ((javaBytes ch).map UInt8.toNat).length := by simp
  rw [hlength]
  have htrail : ∀ x : Nat, 0x80 ≤ x % 0x40 + 0x80 ∧ x % 0x40 + 0x80 < 0xc0 := by omega
  generalize hb : (javaBytes ch).map UInt8.toNat = bytes at hbytes ⊢
  rw [toNat_javaBytes hch] at hb
  split at hb
  · subst hb
    exact ⟨isUnit_of_bytes hbytes (u8CountTrailBytes_eq_zero (by omega)) (by simp),
      javaCodePoint_single hbytes.1 (by omega)⟩
  split at hb
  · subst hb
    have hcount := u8CountTrailBytes_one (show 0xc0 ≤ ch / 0x40 + 0xc0 by omega) (by omega)
    refine ⟨isUnit_of_bytes hbytes hcount (by simp [htrail]), ?_⟩
    have hvalue := hbytes.2.assemble_eq (v := (ch / 0x40 + 0xc0) % 0x20)
    rw [List.length_singleton] at hvalue
    rw [javaCodePoint_multi hbytes.1 (by omega), hcount, if_pos ⟨by decide, by decide, rfl⟩,
      (u8MaskLeadByte_mod _).1, hvalue, Option.some.injEq]
    simp only [List.foldl_cons, List.foldl_nil]
    omega
  · subst hb
    have hcount := u8CountTrailBytes_two (show 0xe0 ≤ ch / 0x1000 + 0xe0 by omega) (by omega)
    refine ⟨isUnit_of_bytes hbytes hcount (by simp [htrail]), ?_⟩
    have hvalue := hbytes.2.assemble_eq (v := (ch / 0x1000 + 0xe0) % 0x10)
    rw [List.length_cons, List.length_singleton] at hvalue
    rw [javaCodePoint_multi hbytes.1 (by omega), hcount, if_pos ⟨by decide, by decide, rfl⟩,
      (u8MaskLeadByte_mod _).2, hvalue, Option.some.injEq]
    simp only [List.foldl_cons, List.foldl_nil]
    omega

theorem javaCodes_encoded {us : List UInt16} (hp : p ≤ t.length)
    (h : t.drop p = (javaCharacters us).flatten) :
    javaCodes t p = us.map fun u => some u.toNat := by
  induction us generalizing p with
  | nil =>
    have := List.drop_eq_nil_iff.mp h
    exact javaCodes_nil this
  | cons u us ih =>
    rw [javaCharacters, List.map_cons, List.flatten_cons] at h
    obtain ⟨hunit, hcode⟩ := javaCodePoint_javaBytes u.toNat_lt h
    have hlt := hunit.lt
    have hle := hunit.le
    have hend := (isUnit_unitEnd (show p < t.length by omega)).unique hunit
    rw [javaCodes_cons (by omega), hend, hcode, List.map_cons,
      ih hle (by rw [← List.drop_drop, h, List.drop_left]; rfl)]

theorem javaReference_encoded (s : List UInt16) (subchar : Int) :
    javaReference (javaCharacters s).flatten subchar = ⟨s, 0, false⟩ := by
  have houtputs : ∀ us : List UInt16, outputs (subOf subchar) (us.map fun u => some u.toNat) =
    us := by
    intro us
    induction us with
    | nil => rfl
    | cons u us ih =>
      rw [List.map_cons, ← List.singleton_append, outputs_append, ih]
      simp [outputs, unitsOf_toNat]
  have hnone : (s.map fun u => some u.toNat).countP (·.isNone) = 0 := by
    rw [List.countP_eq_zero]
    simp
  rw [javaReference, javaCodes_encoded (Nat.zero_le _) List.drop_zero, referenceOf_valid (by simp),
    houtputs, hnone]

theorem javaMeets_encoded (hs : s.length < 2 ^ 31) (subchar : Int) (destCapacity : Nat) :
    JavaMeets (javaCharacters s).flatten false subchar destCapacity 0 := by
  refine ⟨Conversion.roundsFit_of_short (fun p hp _ => ?_) _ _ _, .inr fun before after hsplit =>
    ?_,
    .inr (by rwa [javaReference_encoded])⟩
  · obtain ⟨b, hb, -⟩ := byteAt_eq_some hp
    apply (Conversion.unit_le (isUnit_unitEnd hp) hb).2
    rw [byteAt, List.getElem?_eq_getElem hp, Option.map_some, Option.some.injEq] at hb
    obtain ⟨bytes, hbytes, hmem⟩ := List.mem_flatten.mp (List.getElem_mem hp)
    obtain ⟨u, -, rfl⟩ := List.mem_map.mp hbytes
    rw [← hb]
    exact (byte_javaBytes u.toNat_lt hmem).2
  · rw [javaCodes_encoded (Nat.zero_le _) List.drop_zero] at hsplit
    have hmem : none ∈ s.map fun u => some u.toNat := by simp [hsplit]
    simp at hmem

section Back

variable {destCapacity destCapacity' subchar : Int} {error : UErrorCode}

theorem toJavaAndBack_eq (hsub : subchar < 0 ∨ IsScalar subchar.toNat)
    (hsuccess : error.isSuccess = true)
    (hfits : (javaCharacters s).flatten.length ≤ destCapacity) (hcapacity : destCapacity < 2 ^ 31)
    (hfits' : s.length ≤ destCapacity') (hcapacity' : destCapacity' < 2 ^ 31) :
    ∃ r, toJavaAndBack destCapacity destCapacity' s subchar error = some r ∧ r.text = s ∧
      r.numSubstitutions = some 0 ∧ r.error.isSuccess = true := by
  have hall : fitting destCapacity.toNat (javaCharacters s) = (javaCharacters s).flatten := by
    rw [← javaPrefix_length]
    exact fitting_javaCharacters (Nat.le_refl _) (by rw [javaPrefix_length]; omega)
      (fun h => absurd h (Nat.lt_irrefl _))
  have hencode := (@counted_toJava_iff s false destCapacity error (by omega) hcapacity
    (fun h => nomatch h) hsuccess).2.mpr (by omega)
  have htext : (javaEncoding s destCapacity error).text = (javaCharacters s).flatten := by
    rw [javaEncoding, EncodingResult.text, hall]
    exact List.take_left
  have herror : (javaEncoding s destCapacity error).error.isSuccess = true :=
    (success_of_fits hsuccess (Int.natCast_nonneg _) hfits).1
  have hdecode := (@counted_java_iff (javaCharacters s).flatten subchar false destCapacity' _ herror
    (by omega) (fun h => nomatch h) hsub (by omega) hcapacity').mpr
      (javaMeets_encoded (by omega) subchar _)
  rw [toJavaAndBack, hencode, Option.bind_eq_bind, Option.bind_some, htext, hdecode,
    javaReference_encoded, Reference.result, if_neg (by simp)]
  have hunits : s.take destCapacity'.toNat = s := List.take_of_length_le (by omega)
  refine ⟨_, rfl, ?_, rfl, ?_⟩
  · rw [Result.text]
    rw [Option.getD_some, Int.toNat_natCast, hunits, List.take_left]
  dsimp only
  exact (success_of_fits herror (Int.natCast_nonneg _) hfits').2

/-- The conversion is the encoding of each unit, for every capacity, unless it has more bytes than
an `int32_t` can count. What is written is a prefix of it that ends with a whole character, no byte
is zero, and the decoder yields the units again. -/
theorem uStrToJavaModifiedUTF8_eq_iff {destIsNull : Bool} (h0 : 0 ≤ destCapacity)
    (hcapacity : destCapacity < 2 ^ 31) (hnull : destIsNull = true → destCapacity = 0)
    (hsuccess : error.isSuccess = true) :
    (uStrToJavaModifiedUTF8 destIsNull destCapacity (some s) s.length error =
        some (javaEncoding s destCapacity error) ↔ (javaCharacters s).flatten.length < 2 ^ 31) ∧
    (∃ n, fitting destCapacity.toNat (javaCharacters s) = ((javaCharacters s).take n).flatten ∧
      (fitting destCapacity.toNat (javaCharacters s)).length ≤ destCapacity) ∧
    0 ∉ (javaCharacters s).flatten ∧
    ∀ destCapacity' subchar : Int, (subchar < 0 ∨ IsScalar subchar.toNat) →
      (javaCharacters s).flatten.length ≤ destCapacity → s.length ≤ destCapacity' →
      destCapacity' < 2 ^ 31 →
      ∃ r, toJavaAndBack destCapacity destCapacity' s subchar error = some r ∧ r.text = s ∧
        r.numSubstitutions = some 0 ∧ r.error.isSuccess = true := by
  refine ⟨(counted_toJava_iff h0 hcapacity hnull hsuccess).2, ?_, ?_,
    fun destCapacity' subchar hsub hfits => toJavaAndBack_eq hsub hsuccess hfits hcapacity⟩
  · obtain ⟨n, hn, hle⟩ := fitting_whole destCapacity.toNat (javaCharacters s)
    exact ⟨n, hn, by omega⟩
  intro hzero
  obtain ⟨bytes, hbytes, hmem⟩ := List.mem_flatten.mp hzero
  obtain ⟨u, -, rfl⟩ := List.mem_map.mp hbytes
  exact (byte_javaBytes u.toNat_lt hmem).1 rfl

/-- U+0000 and a surrogate, of which only the first one fits. -/
theorem uStrToJavaModifiedUTF8_surrogate :
    uStrToJavaModifiedUTF8 false 4 (some [0, 0xd800]) 2 .zeroError =
      some ⟨[0xc0, 0x80], some 5, none, .bufferOverflowError⟩ := by
  have h := (@uStrToJavaModifiedUTF8_eq_iff [0, 0xd800] 4 .zeroError false (by decide) (by decide)
    (fun h => nomatch h) rfl).1.mpr (by decide)
  exact h.trans (by decide)

theorem java_length_wraps {n : Nat} (hn : 2 ^ 31 ≤ 3 * n) :
    ∃ r, uStrToJavaModifiedUTF8 true 0 (some (List.replicate n 0x800)) n .zeroError = some r ∧
      r.destLength = some (int32 ((3 * n : Nat) : Int)) ∧
      (javaCharacters (List.replicate n 0x800)).flatten.length = 3 * n ∧
      some r ≠ some (javaEncoding (List.replicate n 0x800) 0 .zeroError) := by
  have hlength : ∀ n : Nat, (javaCharacters (List.replicate n 0x800)).flatten.length = 3 * n := by
    intro n
    induction n with
    | zero => rfl
    | succ n ih =>
      rw [List.replicate_succ, javaCharacters, List.map_cons, List.flatten_cons, List.length_append]
      change 3 + (javaCharacters (List.replicate n 0x800)).flatten.length = _
      omega
  obtain ⟨⟨r, hr, hreq⟩, hiff⟩ := @counted_toJava_iff (List.replicate n 0x800) true 0 .zeroError
    (by decide) (by decide) (fun _ => rfl) rfl
  rw [List.length_replicate] at hr hiff
  rw [hlength] at hreq hiff
  refine ⟨r, hr, hreq, hlength n, fun heq => ?_⟩
  have := hiff.mp (hr.trans heq)
  omega

/-- The length of too many units of three bytes overflows. -/
theorem java_length_overflow :
    ∃ r, uStrToJavaModifiedUTF8 true 0 (some (List.replicate 715827883 0x800)) 715827883
      .zeroError =
        some r ∧ r.destLength = some (-2147483647) ∧
      (javaCharacters (List.replicate 715827883 0x800)).flatten.length = 2147483649 ∧
      some r ≠ some (javaEncoding (List.replicate 715827883 0x800) 0 .zeroError) := by
  obtain ⟨r, hr, hdestLength, hlength, hne⟩ := @java_length_wraps 715827883 (by decide)
  refine ⟨r, hr, ?_, hlength, hne⟩
  rw [hdestLength]
  decide

end Back

end Icu.StrTrans
