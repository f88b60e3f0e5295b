import Icu.Normalizer.Decompose

/-! # Appending to a decomposed text

`normalizeSecondAndAppend()` and `append()` of a `DecomposeNormalizer2`. A buffer is opened over
the first string, and what is appended to it can reorder the marks at its end. A text that grows
in this way is the decomposition of what has been given so far.
-/

namespace Icu.Normalizer

open Utf16 Lib.CanonicalOrder

/-- `init()` over a string. `reorderStart` is behind the last code point whose class is at
most 1. -/
def ReorderingBuffer.init (impl : Normalizer2Impl) (str : List UInt16) : ReorderingBuffer :=
  if str.length = 0 then ⟨str, 0, 0⟩
  else
    let b : ReorderingBuffer := ⟨str, 0, 0⟩
    let (lastCC, codePointStart) := b.previousCC impl str.length
    let codePointLimit :=
      if lastCC > 1 then b.findPrevious impl 1 str.length codePointStart else str.length
    ⟨str, codePointLimit, lastCC⟩

namespace Normalizer2Impl

variable (impl : Normalizer2Impl) (minNoNo : Nat)

/-- `getCCFromNoNo(norm16)`: the low byte of the unit before the first one. -/
def getCCFromNoNo (norm16 : Nat) : Nat :=
  if impl.firstUnit norm16 / 0x80 % 2 = 1 then (impl.extraData (norm16 - 1)).toNat % 0x100 else 0

def getCC (norm16 : Nat) : Nat :=
  if norm16 ≥ minNormalMaybeYes then norm16 % 0x100
  else if norm16 < minNoNo ∨ impl.limitNoNo ≤ norm16 then 0
  else impl.getCCFromNoNo norm16

/-- The loop of `decomposeAndAppend` up to a class 0: `codePointStart` and `prevCC`. -/
def mergeLoop : List Nat → Nat → Nat → Nat × Nat
  | [], codePointStart, prevCC => (codePointStart, prevCC)
  | c :: cps, codePointStart, prevCC =>
    let cc := impl.getCC minNoNo (impl.getNorm16 c)
    if cc ≠ 0 then mergeLoop cps (codePointStart + u16Length c) cc else (codePointStart, prevCC)

/-- `decomposeAndAppend(src, limit, doDecompose, buffer)` -/
def decomposeAndAppend (src : List UInt16) (doDecompose : Bool) (b : ReorderingBuffer) :
    Option ReorderingBuffer :=
  if doDecompose then impl.decompose src b
  else
    let firstCC := ((codePoints src).head?.map fun c => impl.getCC minNoNo (impl.getNorm16 c)).getD
      0
    let (codePointStart, prevCC) := impl.mergeLoop minNoNo (codePoints src) 0 firstCC
    some ((b.appendText impl (src.take codePointStart) firstCC prevCC).appendZeroCC
      (src.drop codePointStart))

/-- `normalizeSecondAndAppend(first, second, doNormalize)` -/
def normalizeSecondAndAppend (first second : List UInt16) (doNormalize : Bool) :
    Option (List UInt16) :=
  (impl.decomposeAndAppend minNoNo second doNormalize (.init impl first)).map (·.text)

end Normalizer2Impl

namespace ReorderingBuffer

variable {impl : Normalizer2Impl} {cps : List Nat}

theorem holds_init (hwf : impl.WellFormed) (h : ∀ c ∈ cps, IsScalar c) :
    Holds impl (init impl (utf16 cps)) cps := by
  rcases List.eq_nil_or_concat cps with rfl | ⟨ds, d, rfl⟩
  · exact holds_empty
  rw [List.concat_eq_append] at h ⊢
  generalize hcps : ds ++ [d] = cps at h ⊢
  have hlength := length_le_utf16 cps
  have hne : (utf16 cps).length ≠ 0 := by
    have := congrArg List.length hcps
    rw [List.length_append, List.length_singleton] at this
    omega
  have hd : IsScalar d := h d (by simp [← hcps])
  have hlast : (previousCC impl ⟨utf16 cps, 0, 0⟩ (utf16 cps).length).1 = lastClass impl cps := by
    have htext : utf16 cps = utf16 ds ++ (unitsOf d ++ []) := by
      rw [← hcps, utf16_append]
      simp
    have hprevious := @previousCC_eq impl ⟨utf16 cps, 0, 0⟩ d (utf16 ds) [] hwf htext hd
      (Nat.add_pos_right _ (length_unitsOf_pos d))
    rw [htext, List.append_nil, List.length_append, ← hcps, lastClass_concat]
    rw [htext, List.append_nil] at hprevious
    rw [hprevious]
  obtain ⟨as, bs, hsplit, has, hbs⟩ := @exists_split _ impl.ccc 1 cps
  have hre : Reorderable impl 0 as ([] ++ bs) := by
    refine ⟨fun c hc => h c ?_, has, Nat.zero_le _, fun _ a ha => h a ?_⟩
    · rw [hsplit]
      exact List.mem_append_right as hc
    · rw [hsplit]
      exact List.mem_append_left bs (List.mem_of_getLast? ha)
  have hfind := @findPrevious_eq impl ⟨utf16 cps, 0, 0⟩ 1 as hwf [] Nat.one_pos (by simp)
    ((utf16 cps).length + 1) bs [] (by rw [hsplit]; simp) hre hbs (by
      have := congrArg List.length hsplit
      rw [List.length_append] at this
      omega)
  rw [List.append_nil, ← hsplit, findPrevious] at hfind
  rw [init, if_neg hne]
  dsimp only
  generalize previousCC impl ⟨utf16 cps, 0, 0⟩ (utf16 cps).length = r at hlast hfind
  dsimp only at hfind
  rw [hfind]
  refine ⟨rfl, hlast, as, bs, hsplit, hre.scalar, has, le_refl _, fun hlt => ?_⟩
  exact absurd hlt (lt_irrefl _)

theorem appendZeroCC_text (b : ReorderingBuffer) (s : List UInt16) :
    (b.appendZeroCC s).text = b.text ++ s := by
  rw [appendZeroCC]
  split
  · next hs => rw [List.length_eq_zero_iff.mp hs, List.append_nil]
  · rfl

end ReorderingBuffer

namespace Normalizer2Impl

variable {impl : Normalizer2Impl} {minNoNo : Nat} {cps : List Nat} {src : List UInt16}

theorem getCC_of_yes (hno : impl.minYesNo ≤ minNoNo) (hmaybe : impl.limitNoNo ≤ impl.minMaybeYes)
    {norm16 : Nat} (hyes : impl.isDecompYes norm16 = true) :
    impl.getCC minNoNo norm16 = getCCFromYesOrMaybe norm16 := by
  rw [isDecompYes, Bool.or_eq_true, decide_eq_true_eq, decide_eq_true_eq] at hyes
  rw [getCC, getCCFromYesOrMaybe, if_pos (show norm16 < minNoNo ∨ impl.limitNoNo ≤ norm16 by omega)]

/-- The code points before the first starter, which are not read further. -/
theorem mergeLoop_eq (h : ∀ c ∈ cps, impl.getCC minNoNo (impl.getNorm16 c) = impl.ccc c) :
    ∀ start prevCC, ∃ marks rest, cps = marks ++ rest ∧ (∀ c ∈ marks, impl.ccc c ≠ 0) ∧
      (∀ c, rest.head? = some c → impl.ccc c = 0) ∧ impl.mergeLoop minNoNo cps start prevCC =
        (start + (utf16 marks).length, (marks.getLast?.map impl.ccc).getD prevCC) := by
  induction cps with
  | nil => exact fun start prevCC => ⟨[], [], rfl, by simp, by simp, rfl⟩
  | cons c cps ih =>
    intro start prevCC
    rw [mergeLoop, h c List.mem_cons_self]
    by_cases hcc : impl.ccc c = 0
    · refine ⟨[], c :: cps, rfl, by simp, fun d hd => ?_, if_neg (not_not.mpr hcc)⟩
      rwa [← Option.some.inj hd]
    obtain ⟨marks, rest, rfl, hmarks, hrest, hloop⟩ :=
      ih (fun d hd => h d (List.mem_cons_of_mem c hd)) (start + u16Length c) (impl.ccc c)
    refine ⟨c :: marks, rest, rfl, List.forall_mem_cons.mpr ⟨hcc, hmarks⟩, hrest, ?_⟩
    rw [if_pos hcc, hloop, utf16_cons, List.length_append, length_unitsOf, Nat.add_assoc,
      List.getLast?_cons, Option.map_some, Option.getD_some]
    cases marks.getLast? with
    | none => rfl
    | some d => rfl

theorem decomposed_concat (cps cps' : List Nat) : impl.decomposed (cps ++ cps') =
    (cps'.flatMap impl.mapping).foldl (fun acc x => insertMark impl.ccc x acc)
      (impl.decomposed cps) := by
  rw [decomposed, List.flatMap_append, canonicalOrder_append]
  rfl

theorem WellFormed.decomposed_scalar (hwf : impl.WellFormed) (h : ∀ c ∈ cps, IsScalar c) :
    ∀ d ∈ impl.decomposed cps, IsScalar d := by
  have hle : ∀ c ∈ cps, c ≤ 0x10ffff := fun c hc => (h c hc).le
  have hnone : (impl.decomposed cps).countP uIsSurrogate = 0 := by
    rw [hwf.countP_decomposed hle, List.countP_eq_zero]
    exact fun c hc => Bool.eq_false_iff.mp (h c hc).not_surrogate
  exact fun d hd => ⟨hwf.decomposed_le hle d hd,
    Bool.eq_false_iff.mpr (List.countP_eq_zero.mp hnone d hd)⟩

section

variable (hwf : impl.WellFormed) (hno : impl.minYesNo ≤ minNoNo)
  (hmaybe : impl.limitNoNo ≤ impl.minMaybeYes)
include hwf hno hmaybe

/-- What is appended to a buffer is inserted code point by code point. -/
theorem decomposeAndAppend_text {b : ReorderingBuffer} {doDecompose : Bool} (hb : b.Holds impl cps)
    (hsrc : doDecompose = false → impl.nfd src = src) :
    ∃ b', impl.decomposeAndAppend minNoNo src doDecompose b = some b' ∧
      b'.text = utf16 (((codePoints src).flatMap impl.mapping).foldl
        (fun acc x => insertMark impl.ccc x acc) cps) := by
  cases doDecompose with
  | true =>
    obtain ⟨b', h1, h2⟩ := @decomposeLoop_holds impl src hwf (src.length + 1) 0 0 0 b cps
      (Nat.zero_le _) (Nat.lt_succ_self _) hb
    exact ⟨b', h1, h2.text⟩
  | false =>
    have hstable := (hwf.nfd_eq_self_iff src).mp (hsrc rfl)
    have hcc : ∀ c ∈ codePoints src, impl.getCC minNoNo (impl.getNorm16 c) = impl.ccc c :=
      fun c hc => getCC_of_yes hno hmaybe (hstable.yes c hc)
    refine ⟨_, rfl, ?_⟩
    rw [flatMap_mapping_of_yes hstable.yes]
    generalize hfirst : ((codePoints src).head?.map
      fun c => impl.getCC minNoNo (impl.getNorm16 c)).getD 0 = firstCC
    obtain ⟨marks, rest, hsplit, hmarks, hrest, hloop⟩ := mergeLoop_eq hcc 0 firstCC
    have hunits : src = utf16 marks ++ utf16 rest := by
      rw [← utf16_append, ← hsplit, utf16_codePoints]
    have hcodes : codePoints (utf16 marks) = marks :=
      (hsplit ▸ unjoined_codePoints src).of_append.1.codePoints_utf16
    obtain ⟨hordered, hordered', hfollows⟩ := List.isChain_append.mp (hsplit ▸ hstable.ordered)
    have hholds := @ReorderingBuffer.Holds.appendText impl b cps hwf hb (utf16 marks) firstCC
      ((marks.getLast?.map impl.ccc).getD firstCC)
    rw [hcodes] at hholds
    have hmarked := hholds (fun c hc => ?_) hordered (fun c hc => ?_) (fun c hc => by rw [hc]; rfl)
    · rw [hloop, Nat.zero_add, ReorderingBuffer.appendZeroCC_text]
      dsimp only
      rw [hunits, List.take_left, List.drop_left, hmarked.text, ← utf16_append, ← hunits, hsplit,
        List.foldl_append, foldl_insertMark_isOrdered hordered']
      exact fun x y _ hy => .inl (hrest y hy)
    · -- surrogates are starters
      refine ⟨codePoints_le src c (hsplit ▸ List.mem_append_left rest hc), ?_⟩
      rw [← Bool.not_eq_true]
      exact fun hs => hmarks c hc (hwf.surrogate c hs).zero
    · rw [← hfirst, hsplit, List.head?_append, hc]
      exact hcc c (hsplit ▸ List.mem_append_left rest (List.mem_of_head? hc))

theorem normalizeSecondAndAppend_eq (h : ∀ c ∈ cps, IsScalar c) {doNormalize : Bool}
    (hsrc : doNormalize = false → impl.nfd src = src) :
    impl.normalizeSecondAndAppend minNoNo (utf16 (impl.decomposed cps)) src doNormalize =
      some (utf16 (impl.decomposed (cps ++ codePoints src))) := by
  obtain ⟨b, h1, h2⟩ := decomposeAndAppend_text hwf hno hmaybe
    (ReorderingBuffer.holds_init hwf (hwf.decomposed_scalar h)) hsrc
  rw [normalizeSecondAndAppend, h1, Option.map_some, h2, decomposed_concat]

theorem foldlM_normalizeSecondAndAppend {pieces : List (List UInt16 × Bool)}
    (hpieces : ∀ p ∈ pieces, Utf16.WellFormed p.1 ∧ (p.2 = false → impl.nfd p.1 = p.1))
    (h : ∀ c ∈ cps, IsScalar c) :
    pieces.foldlM (fun first p => impl.normalizeSecondAndAppend minNoNo first p.1 p.2)
        (utf16 (impl.decomposed cps)) =
      some (utf16 (impl.decomposed (cps ++ pieces.flatMap fun p => codePoints p.1))) := by
  induction pieces generalizing cps with
  | nil => rw [List.flatMap_nil, List.append_nil]; rfl
  | cons p pieces ih =>
    obtain ⟨⟨hp, hsrc⟩, htail⟩ := List.forall_mem_cons.mp hpieces
    rw [List.foldlM_cons, normalizeSecondAndAppend_eq hwf hno hmaybe h hsrc, Option.bind_eq_bind,
      Option.bind_some, ih htail (List.forall_mem_append.mpr ⟨h, hp⟩), List.flatMap_cons,
      List.append_assoc]

/-- Text that is given in pieces is decomposed as a whole, if the pieces that are only appended are
decomposed. -/
theorem appendAll_eq_nfd {pieces : List (List UInt16 × Bool)}
    (hpieces : ∀ p ∈ pieces, Utf16.WellFormed p.1 ∧ (p.2 = false → impl.nfd p.1 = p.1)) :
    pieces.foldlM (fun first p => impl.normalizeSecondAndAppend minNoNo first p.1 p.2) [] =
      some (impl.nfd (pieces.flatMap (·.1))) := by
  have hall : ∀ c ∈ pieces.flatMap fun p => codePoints p.1, IsScalar c := by
    intro c hc
    obtain ⟨p, hp, hc⟩ := List.mem_flatMap.mp hc
    exact (hpieces p hp).1 c hc
  have htext : pieces.flatMap (·.1) = utf16 (pieces.flatMap fun p => codePoints p.1) := by
    rw [utf16, List.flatMap_assoc]
    exact List.flatMap_congr fun p _ => (utf16_codePoints p.1).symm
  rw [htext, nfd_utf16 (unjoined_of_isScalar hall)]
  exact foldlM_normalizeSecondAndAppend hwf hno hmaybe hpieces (List.forall_mem_nil _)

end

theorem appendAll_eq_nfd_deletingData :
    [([0x61, 0xd834, 0xdd5e], true), ([0xd834, 0xdd65, 0x62], false)].foldlM
        (fun first p => deletingData.normalizeSecondAndAppend 8 first p.1 p.2) [] =
      some [0x61, 0xd834, 0xdd57, 0xd834, 0xdd65, 0xd834, 0xdd65, 0x62] :=
  (appendAll_eq_nfd deletingData_wellFormed (by decide) (by decide) (by decide)).trans (by decide)

end Normalizer2Impl

end Icu.Normalizer
