import Icu.Normalizer.Buffer
import Icu.Normalizer.QuickCheck
import Icu.Normalizer.Nfd

/-! # Decomposition of strings

`decompose()` writes the canonical decomposition to its buffer, and without a buffer it
returns the end of a prefix that is not changed.
-/

namespace Icu.Normalizer

open Utf16 Lib.CanonicalOrder

namespace Normalizer2Impl

variable {impl : Normalizer2Impl} {s : List UInt16} {b : ReorderingBuffer} {cps : List Nat}
  {c : Nat} {prevSrc src start prevBoundary prevCC : Nat}

theorem decomposes_iff :
    impl.decomposes c = true ↔ ¬ impl.isDecompYes (impl.getNorm16 c) = true := by
  rw [decomposes, Bool.not_eq_true', Bool.not_eq_true]

theorem utf16_map_toNat : ∀ us : List UInt16, utf16 (us.map (·.toNat)) = us
  | [] => rfl
  | u :: us => by rw [List.map_cons, utf16_cons, unitsOf_toNat, utf16_map_toNat us]; rfl

theorem foldl_insertMark_starters {ds : List Nat} (h : ∀ d ∈ ds, impl.ccc d = 0) :
    ds.foldl (fun acc x => insertMark impl.ccc x acc) cps = cps ++ ds := by
  induction ds generalizing cps with
  | nil => simp
  | cons d ds ih =>
    rw [List.foldl_cons, insertMark_starter (h d List.mem_cons_self),
      ih fun e he => h e (List.mem_cons_of_mem d he)]
    simp

theorem decomposeChar_holds (hwf : impl.WellFormed) (hb : b.Holds impl cps)
    {rank : Nat → Nat} (hrank : ∀ c ≤ 0x10ffff, impl.decomposes c = true →
      impl.isHangul (impl.getNorm16 c) = false →
      impl.isDecompNoAlgorithmic (impl.getNorm16 c) = true →
      IsScalar (impl.mapAlgorithmic c (impl.getNorm16 c)) ∧
        rank (impl.mapAlgorithmic c (impl.getNorm16 c)) < rank c) :
    ∀ (fuel c : Nat), c ≤ 0x10ffff → rank c < fuel →
      ∃ b', impl.decomposeChar b fuel c (impl.getNorm16 c) = some b' ∧
        b'.Holds impl ((impl.fullMapping fuel c).foldl (fun acc x => insertMark impl.ccc x acc) cps)
  | 0, c, _, hfuel => by omega
  | fuel + 1, c, hc, hfuel => by
    rw [decomposeChar, fullMapping]
    by_cases hyes : impl.isDecompYes (impl.getNorm16 c) = true
    · rw [if_pos hyes, if_pos hyes]
      refine ⟨_, rfl, hb.append hwf rfl fun hcc => ⟨hc, ?_⟩⟩
      rw [← Bool.not_eq_true]
      intro hsurrogate
      exact hcc (hwf.surrogate c hsurrogate).zero
    rw [if_neg hyes, if_neg hyes]
    have hno := decomposes_iff.mpr hyes
    by_cases hhangul : impl.isHangul (impl.getNorm16 c) = true
    · rw [if_pos hhangul, if_pos hhangul]
      have hzero : ∀ d ∈ (Hangul.decompose c).map (·.toNat), impl.ccc d = 0 := by
        intro d hd
        obtain ⟨u, hu, rfl⟩ := List.mem_map.mp hd
        exact (hwf.hangul c hc hno hhangul u hu).1.zero
      refine ⟨_, rfl, ?_⟩
      rw [foldl_insertMark_starters hzero]
      have hholds := hb.appendZeroCC hzero
      rwa [utf16_map_toNat] at hholds
    rw [if_neg hhangul, if_neg hhangul]
    rw [Bool.not_eq_true] at hhangul
    by_cases halgorithmic : impl.isDecompNoAlgorithmic (impl.getNorm16 c) = true
    · obtain ⟨hscalar, hlt⟩ := hrank c hc hno hhangul halgorithmic
      rw [if_pos halgorithmic, if_pos halgorithmic]
      exact decomposeChar_holds hwf hb hrank fuel _ hscalar.le (by omega)
    rw [if_neg halgorithmic, if_neg halgorithmic]
    rw [Bool.not_eq_true] at halgorithmic
    obtain ⟨hscalar, -, hordered, hlead, htrail⟩ := hwf.mapping c hc hno hhangul halgorithmic
    exact ⟨_, rfl, hb.appendText hwf hscalar hordered hlead htrail⟩

theorem decomposeChar_mapping (hwf : impl.WellFormed) (hb : b.Holds impl cps) (hc : c ≤ 0x10ffff) :
    ∃ b', impl.decomposeChar b mappingFuel c (impl.getNorm16 c) = some b' ∧
      b'.Holds impl ((impl.mapping c).foldl (fun acc x => insertMark impl.ccc x acc) cps) := by
  obtain ⟨rank, hlt, hrank⟩ := hwf.algorithmic
  have hfuel := hlt c
  exact decomposeChar_holds hwf hb hrank mappingFuel c hc (by rw [mappingFuel]; omega)

theorem take_of_drop_eq {us : List UInt16} (hlen : prevSrc + us.length = src)
    (h : s.drop prevSrc = us ++ s.drop src) : (s.drop prevSrc).take (src - prevSrc) = us := by
  rw [h, show src - prevSrc = us.length by omega, List.take_left]

theorem quickCheck_start (hwf : impl.WellFormed) (hle : prevSrc ≤ s.length)
    (c norm16 : Nat) :
    ∃ src' c' norm16', impl.quickCheck s prevSrc (s.length + 1) prevSrc c norm16 =
      some (src', c', norm16') ∧ Stops impl s prevSrc src' c' norm16' :=
  quickCheck_stops hwf (s.length + 1) prevSrc hle (by omega) (.inl copied_refl) c norm16

theorem decomposeLoop_holds (hwf : impl.WellFormed) : ∀ (fuel prevSrc c norm16 : Nat)
    (b : ReorderingBuffer) (cps : List Nat), prevSrc ≤ s.length → s.length - prevSrc < fuel →
    b.Holds impl cps → ∃ b', impl.decomposeLoop s fuel prevSrc c norm16 b = some b' ∧
      b'.Holds impl (((codePoints (s.drop prevSrc)).flatMap impl.mapping).foldl
        (fun acc x => insertMark impl.ccc x acc) cps)
  | 0, _, _, _, _, _, _, hfuel, _ => by omega
  | fuel + 1, prevSrc, c, norm16, b, cps, hle, hfuel, hb => by
    obtain ⟨src, c', norm16', hquick, hstops⟩ := quickCheck_start hwf hle c norm16
    obtain ⟨C, hC, hlen, hdrop, hcps⟩ := hstops.copied
    have hzero : ∀ c ∈ C, impl.ccc c = 0 := fun c hc => (hC c hc).zero
    -- what has been copied
    have hcopy : (if src ≠ prevSrc then b.appendZeroCC ((s.drop prevSrc).take (src - prevSrc))
        else b).Holds impl (cps ++ C) := by
      rw [take_of_drop_eq hlen hdrop]
      have hholds := hb.appendZeroCC hzero
      by_cases hne : src ≠ prevSrc
      · rw [if_pos hne]
        exact hholds
      rw [ReorderingBuffer.appendZeroCC, if_pos (by omega)] at hholds
      rw [if_neg hne]
      exact hholds
    have hfold : ((codePoints (s.drop prevSrc)).flatMap impl.mapping).foldl
        (fun acc x => insertMark impl.ccc x acc) cps =
        ((codePoints (s.drop src)).flatMap impl.mapping).foldl
          (fun acc x => insertMark impl.ccc x acc) (cps ++ C) := by
      rw [hcps, List.flatMap_append, flatMap_mapping_of_yes fun c hc => (hC c hc).yes,
        List.foldl_append, foldl_insertMark_starters hzero]
    rw [decomposeLoop, hquick, hfold]
    simp only [Option.bind_eq_bind, Option.bind_some]
    by_cases hend : src = s.length
    · rw [if_pos hend]
      have hrest : codePoints (s.drop src) = [] := by
        rw [hend, List.drop_length]
        rfl
      rw [hrest]
      exact ⟨_, rfl, hcopy⟩
    obtain ⟨hat, rfl⟩ := hstops.stop hend
    obtain ⟨b', hchar, hb'⟩ := decomposeChar_mapping hwf hcopy hat.le
    have hle' := hat.le_length
    have hpos := length_unitsOf_pos c'
    rw [length_unitsOf] at hpos
    rw [if_neg hend, hchar, Option.bind_some, hat.codePoints_eq, List.flatMap_cons,
      List.foldl_append]
    exact decomposeLoop_holds hwf fuel _ _ _ b' _ hle' (by omega) hb'

/-- `decompose()` writes the canonical decomposition. -/
theorem decompose_holds (hwf : impl.WellFormed) (s : List UInt16) :
    ∃ b, impl.decompose s .empty = some b ∧ b.text = impl.nfd s := by
  obtain ⟨b, h1, h2⟩ :=
    @decomposeLoop_holds impl s hwf (s.length + 1) 0 0 0 .empty [] (Nat.zero_le _)
    (by omega) ReorderingBuffer.holds_empty
  refine ⟨b, h1, ?_⟩
  rw [h2.text, List.drop_zero, ← canonicalOrder_eq_foldl]
  rfl

theorem lowPrefix (m : Nat) : ∀ s : List UInt16,
    (∀ u ∈ s.take (lowPrefixLength m s), u.toNat < m ∧ u ≠ 0) ∧ lowPrefixLength m s ≤ s.length
  | [] => ⟨by simp [lowPrefixLength], le_refl _⟩
  | u :: s => by
    obtain ⟨h1, h2⟩ := lowPrefix m s
    rw [lowPrefixLength]
    by_cases hu : u.toNat < m ∧ u ≠ 0
    · rw [if_pos hu, List.take_succ_cons]
      refine ⟨fun v hv => ?_, by rw [List.length_cons]; omega⟩
      rcases List.mem_cons.mp hv with rfl | hv
      · exact hu
      · exact h1 v hv
    · rw [if_neg hu, List.take_zero]
      exact ⟨by simp, Nat.zero_le _⟩

theorem take_limit (m : Nat) (s : List UInt16) :
    s.take (lowPrefixLength m s + ((s.drop (lowPrefixLength m s)).takeWhile (· ≠ 0)).length) =
      s.takeWhile (· ≠ 0) := by
  obtain ⟨h1, -⟩ := lowPrefix m s
  generalize lowPrefixLength m s = n at h1
  have hsplit : s = s.take n ++ s.drop n := (List.take_append_drop n s).symm
  have hlen : (s.drop n).take ((s.drop n).takeWhile (· ≠ 0)).length =
      (s.drop n).takeWhile (· ≠ 0) := by
    have hfront := List.takeWhile_prefix (fun u : UInt16 => decide (u ≠ 0)) (l := s.drop n)
    exact (List.prefix_iff_eq_take.mp hfront).symm
  rw [List.take_add, hlen]
  conv_rhs => rw [hsplit, List.takeWhile_append_of_pos fun u hu => decide_eq_true (h1 u hu).2]

structure IsTerminated (m : Nat) (s t : List UInt16) (n limit : Nat) : Prop where
  take_eq : s.take limit = t
  length_eq : t.length = limit
  le_limit : n ≤ limit
  prefix_eq : s.take n = t.take n
  low : ∀ u ∈ t.take n, u.toNat < m

theorem isTerminated (m : Nat) (s : List UInt16) :
    IsTerminated m s (s.takeWhile (· ≠ 0)) (lowPrefixLength m s)
      (lowPrefixLength m s + ((s.drop (lowPrefixLength m s)).takeWhile (· ≠ 0)).length) := by
  obtain ⟨hlow, hle⟩ := lowPrefix m s
  have htake := take_limit m s
  generalize lowPrefixLength m s = n at *
  have hfront : s.take n = (s.takeWhile (· ≠ 0)).take n := by
    rw [← htake, List.take_take, min_eq_left (by omega)]
  refine ⟨htake, ?_, Nat.le_add_right _ _, hfront, fun u hu => (hlow u (hfront ▸ hu)).1⟩
  have := (List.takeWhile_sublist (l := s.drop n) fun u : UInt16 => decide (u ≠ 0)).length_le
  rw [List.length_drop] at this
  rw [← htake, List.length_take]
  omega

theorem WellFormed.inert_of_low (hwf : impl.WellFormed) {u : UInt16}
    (h : u.toNat < impl.minDecompNoCP) : impl.Inert u.toNat := by
  by_cases hlead : u16IsLead u.toNat = true
  · exact hwf.surrogate _ (uIsSurrogate_of_lead hlead)
  · exact hwf.low _ u.toNat_lt h (Bool.eq_false_iff.mpr hlead)

/-- `decompose()` of a NUL-terminated string -/
theorem decomposeTerminated_holds (hwf : impl.WellFormed) (s : List UInt16) :
    ∃ b, impl.decomposeTerminated s .empty = some b ∧ b.text = impl.nfd (s.takeWhile (· ≠ 0)) := by
  have hterm := isTerminated impl.minDecompNoCP s
  simp only [decomposeTerminated]
  rw [hterm.take_eq]
  generalize lowPrefixLength impl.minDecompNoCP s = n at *
  generalize n + ((s.drop n).takeWhile (· ≠ 0)).length = limit at *
  generalize s.takeWhile (· ≠ 0) = t at *
  obtain ⟨-, hlength, hle, hfront, hlow⟩ := hterm
  have hinert : ∀ c ∈ (t.take n).map (·.toNat), impl.Inert c := by
    intro c hc
    obtain ⟨u, hu, rfl⟩ := List.mem_map.mp hc
    exact hwf.inert_of_low (hlow u hu)
  have hzero : ∀ c ∈ (t.take n).map (·.toNat), impl.ccc c = 0 := fun c hc => (hinert c hc).zero
  have hb := ReorderingBuffer.holds_empty.appendZeroCC hzero
  rw [utf16_map_toNat, List.nil_append] at hb
  obtain ⟨b, h1, h2⟩ :=
    @decomposeLoop_holds impl t hwf (limit + 1) n 0 0 _ _ (by omega) (by omega) hb
  rw [hfront]
  refine ⟨b, h1, ?_⟩
  conv_rhs => rw [← List.take_append_drop n t, hwf.nfd_lows hlow]
  have hboundary := @canonicalOrder_boundary _ impl.ccc _ (stable_of_inert hinert).ordered
    (fun c hc => by rw [hzero c (List.mem_of_getLast? hc)]; exact Nat.zero_le 1)
    ((codePoints (t.drop n)).flatMap impl.mapping)
  rw [canonicalOrder_append, canonicalOrder_eq_self (stable_of_inert hinert).ordered] at hboundary
  rw [h2.text, hboundary, utf16_append, utf16_map_toNat]
  rfl

/-! ## Without a buffer -/

/-- The code points up to `prevSrc` are stable, those up to `prevBoundary` are not reordered. -/
def Spanned (impl : Normalizer2Impl) (s : List UInt16) (start prevSrc prevBoundary prevCC : Nat) :
    Prop :=
  ∃ C₁ C₂, Stable impl (C₁ ++ C₂) ∧ (∀ c, C₁.getLast? = some c → impl.ccc c ≤ 1) ∧
    start + (utf16 (C₁ ++ C₂)).length = prevSrc ∧ start + (utf16 C₁).length = prevBoundary ∧
    codePoints (s.drop start) = C₁ ++ C₂ ++ codePoints (s.drop prevSrc) ∧
    prevCC = ReorderingBuffer.lastClass impl (C₁ ++ C₂)

theorem spanned_refl : Spanned impl s start start start 0 :=
  ⟨[], [], ⟨by simp, List.isChain_nil⟩, by simp, by simp, by simp, by simp, rfl⟩

theorem Stable.append {C D : List Nat} (hC : Stable impl C) (hD : Stable impl D)
    (h : ∀ x y, C.getLast? = some x → D.head? = some y → Follows impl.ccc x y) :
    Stable impl (C ++ D) := by
  refine ⟨fun c hc => ?_, List.isChain_append.mpr ⟨hC.ordered, hD.ordered, fun x hx y hy =>
    h x y hx hy⟩⟩
  rcases List.mem_append.mp hc with hc | hc
  · exact hC.yes c hc
  · exact hD.yes c hc

theorem Spanned.copied
    (h : Spanned impl s start prevSrc prevBoundary prevCC) (hcopied : Copied impl s prevSrc src) :
    Spanned impl s start src (if src ≠ prevSrc then src else prevBoundary)
      (if src ≠ prevSrc then 0 else prevCC) := by
  by_cases hne : src ≠ prevSrc
  · obtain ⟨C₁, C₂, hstable, -, hsrc, -, hcps, -⟩ := h
    obtain ⟨C, hC, hlen, -, hcps'⟩ := hcopied
    have hzero : ∀ c, (C₁ ++ C₂ ++ C).getLast? = some c → impl.ccc c = 0 := by
      intro c hc
      rw [List.getLast?_append_of_ne_nil _ fun hnil => by
        rw [hnil, utf16_nil, List.length_nil] at hlen
        omega] at hc
      exact (hC c (List.mem_of_getLast? hc)).zero
    rw [if_pos hne, if_pos hne]
    refine ⟨C₁ ++ C₂ ++ C, [], ?_, ?_, ?_, ?_, ?_, ?_⟩
    · rw [List.append_nil]
      exact hstable.append (stable_of_inert hC) fun x y _ hy =>
        .inl (hC y (List.mem_of_head? hy)).zero
    · intro c hc
      rw [hzero c hc]
      exact Nat.zero_le 1
    · rw [List.append_nil, utf16_append (C₁ ++ C₂), List.length_append]
      omega
    · rw [utf16_append (C₁ ++ C₂), List.length_append]
      omega
    · rw [hcps, hcps', List.append_nil, List.append_assoc _ C]
    · rw [List.append_nil, ReorderingBuffer.lastClass]
      cases hlast : (C₁ ++ C₂ ++ C).getLast? with
      | none => rfl
      | some c => exact (hzero c hlast).symm
  · rw [if_neg hne, if_neg hne]
    push Not at hne
    rw [hne]
    exact h

theorem Spanned.step
    (h : Spanned impl s start prevSrc prevBoundary prevCC) (hat : CodePointAt s prevSrc c)
    (hyes : impl.isDecompYes (impl.getNorm16 c) = true)
    (hcc : prevCC ≤ impl.ccc c ∨ impl.ccc c = 0) : Spanned impl s start (prevSrc + u16Length c)
      (if impl.ccc c ≤ 1 then prevSrc + u16Length c else prevBoundary) (impl.ccc c) := by
  obtain ⟨C₁, C₂, hstable, hlow, hsrc, hboundary, hcps, hlast⟩ := h
  have hlen : start + (utf16 (C₁ ++ C₂ ++ [c])).length = prevSrc + u16Length c := by
    rw [utf16_append (C₁ ++ C₂), List.length_append, ← length_unitsOf, ← hsrc]
    simp
    omega
  have hstable' : Stable impl (C₁ ++ C₂ ++ [c]) := by
    apply hstable.append ⟨fun d hd => by rwa [List.mem_singleton.mp hd], List.isChain_singleton c⟩
    intro x y hx hy
    obtain rfl : c = y := by simpa using hy
    rw [hlast, ReorderingBuffer.lastClass, hx] at hcc
    exact hcc.symm
  have hcps' : codePoints (s.drop start) =
      C₁ ++ C₂ ++ [c] ++ codePoints (s.drop (prevSrc + u16Length c)) := by
    rw [hcps, hat.codePoints_eq]
    simp
  by_cases hone : impl.ccc c ≤ 1
  · rw [if_pos hone]
    refine ⟨C₁ ++ C₂ ++ [c], [], ?_, ?_, ?_, hlen, ?_, ?_⟩
    · rwa [List.append_nil]
    · intro d hd
      obtain rfl : c = d := by simpa using hd
      exact hone
    · rwa [List.append_nil]
    · rwa [List.append_nil]
    · rw [List.append_nil, ReorderingBuffer.lastClass_concat]
  · rw [if_neg hone]
    refine ⟨C₁, C₂ ++ [c], ?_, hlow, ?_, hboundary, ?_, ?_⟩
    · rwa [← List.append_assoc]
    · rwa [← List.append_assoc]
    · rwa [← List.append_assoc]
    · rw [← List.append_assoc, ReorderingBuffer.lastClass_concat]

theorem Spanned.isSpan_end (hwf : impl.WellFormed)
    (h : Spanned impl s start s.length prevBoundary prevCC) :
    IsSpan impl (s.drop start) (s.length - start) := by
  obtain ⟨C₁, C₂, hstable, -, -, -, hcps, -⟩ := h
  have hall : codePoints (s.drop start) = C₁ ++ C₂ := by
    rw [hcps, List.drop_length]
    exact List.append_nil _
  rw [← List.length_drop]
  exact Normalizer2Impl.isSpan_end ((hwf.nfd_eq_self_iff _).mpr (hall ▸ hstable))

theorem Spanned.isSpan_boundary (hwf : impl.WellFormed)
    (h : Spanned impl s start prevSrc prevBoundary prevCC) (hat : CodePointAt s prevSrc c)
    (hno : ¬ (impl.isDecompYes (impl.getNorm16 c) = true ∧
    (prevCC ≤ impl.ccc c ∨ impl.ccc c = 0))) :
    start ≤ prevBoundary ∧ IsSpan impl (s.drop start) (prevBoundary - start) := by
  obtain ⟨C₁, C₂, hstable, hlow, hsrc, hboundary, hcps, hlast⟩ := h
  have hle := hat.le_length
  have hpos := length_unitsOf_pos c
  rw [length_unitsOf] at hpos
  rw [utf16_append, List.length_append] at hsrc
  refine ⟨by omega, ?_⟩
  rw [show prevBoundary - start = (utf16 C₁).length by omega]
  have hsplit : codePoints (s.drop start) = C₁ ++ (C₂ ++ codePoints (s.drop prevSrc)) := by
    rw [hcps, List.append_assoc]
  apply isSpan_of_boundary hsplit
  · exact ⟨fun c hc => hstable.yes c (List.mem_append_left _ hc),
      (List.isChain_append.mp hstable.ordered).1⟩
  · exact hlow
  · rw [List.length_drop]
    omega
  · -- the next code point is not stable
    intro heq
    have hall := (hwf.nfd_eq_self_iff _).mp heq
    rw [hcps, hat.codePoints_eq] at hall
    refine hno ⟨hall.yes c (by simp), ?_⟩
    obtain ⟨-, -, hfollows⟩ := List.isChain_append.mp hall.ordered
    cases hx : (C₁ ++ C₂).getLast? with
    | none =>
      left
      rw [hlast, ReorderingBuffer.lastClass, hx]
      exact Nat.zero_le _
    | some x =>
      rw [hlast, ReorderingBuffer.lastClass, hx]
      exact (hfollows x hx c (by simp)).symm

theorem spanLoop_isSpan (hwf : impl.WellFormed) {start : Nat} :
    ∀ (fuel prevSrc c norm16 prevBoundary prevCC : Nat), start ≤ s.length → prevSrc ≤ s.length →
    s.length - prevSrc < fuel → Spanned impl s start prevSrc prevBoundary prevCC →
    ∃ p, impl.spanLoop s fuel prevSrc c norm16 prevBoundary prevCC = some (start + p) ∧
      IsSpan impl (s.drop start) p
  | 0, _, _, _, _, _, _, _, hfuel, _ => by omega
  | fuel + 1, prevSrc, c, norm16, prevBoundary, prevCC, hstart, hle, hfuel, h => by
    obtain ⟨src, c', norm16', hquick, hstops⟩ := quickCheck_start hwf hle c norm16
    have hcopied := h.copied hstops.copied
    rw [spanLoop, hquick]
    simp only [Option.bind_eq_bind, Option.bind_some]
    generalize (if src ≠ prevSrc then src else prevBoundary) = prevBoundary' at hcopied ⊢
    generalize (if src ≠ prevSrc then 0 else prevCC) = prevCC' at hcopied ⊢
    by_cases hend : src = s.length
    · rw [if_pos hend]
      rw [hend] at hcopied ⊢
      refine ⟨s.length - start, ?_, hcopied.isSpan_end hwf⟩
      rw [Nat.add_sub_cancel' hstart]
      rfl
    obtain ⟨hat, rfl⟩ := hstops.stop hend
    have hle' := hat.le_length
    have hstart' := hstops.copied.start_le
    have hpos := length_unitsOf_pos c'
    rw [length_unitsOf] at hpos
    rw [if_neg hend]
    by_cases hyes : impl.isDecompYes (impl.getNorm16 c') = true ∧
        (prevCC' ≤ impl.ccc c' ∨ impl.ccc c' = 0)
    · have hstep := hcopied.step hat hyes.1 hyes.2
      rw [ccc] at hyes
      rw [if_pos hyes]
      exact spanLoop_isSpan hwf fuel _ _ _ _ _ hstart hle' (by omega) hstep
    obtain ⟨hboundary, hspan⟩ := hcopied.isSpan_boundary hwf hat hyes
    rw [ccc] at hyes
    rw [if_neg hyes]
    refine ⟨prevBoundary' - start, ?_, hspan⟩
    rw [Nat.add_sub_cancel' hboundary]
    rfl

theorem decomposeSpan_isSpan (hwf : impl.WellFormed) (s : List UInt16) :
    ∃ p, impl.decomposeSpan s = some p ∧ IsSpan impl s p := by
  obtain ⟨p, h1, h2⟩ := @spanLoop_isSpan impl s hwf 0 (s.length + 1) 0 0 0 0 0 (Nat.zero_le _)
    (Nat.zero_le _) (by omega) spanned_refl
  rw [Nat.zero_add] at h1
  exact ⟨p, h1, h2⟩

theorem decomposeSpanTerminated_isSpan (hwf : impl.WellFormed) (s : List UInt16) :
    ∃ p, impl.decomposeSpanTerminated s = some p ∧ IsSpan impl (s.takeWhile (· ≠ 0)) p := by
  have hterm := isTerminated impl.minDecompNoCP s
  simp only [decomposeSpanTerminated]
  rw [hterm.take_eq]
  generalize lowPrefixLength impl.minDecompNoCP s = n at *
  generalize n + ((s.drop n).takeWhile (· ≠ 0)).length = limit at *
  generalize s.takeWhile (· ≠ 0) = t at *
  obtain ⟨-, hlength, hle, -, hlow⟩ := hterm
  obtain ⟨p, h1, h2⟩ := @spanLoop_isSpan impl t hwf n (limit + 1) n 0 0 n 0 (by omega) (by omega)
    (by omega) spanned_refl
  refine ⟨n + p, h1, ?_⟩
  have hspan := h2.lows hwf hlow
  rwa [List.take_append_drop, List.length_take, min_eq_left (by omega)] at hspan

/-! ## Results -/

/-- What `decompose()` writes to an empty buffer. -/
def decomposeText (impl : Normalizer2Impl) (s : List UInt16) : Option (List UInt16) :=
  (impl.decompose s .empty).map (·.text)

/-- What `decompose()` writes for a NUL-terminated string. -/
def decomposeTextTerminated (impl : Normalizer2Impl) (s : List UInt16) : Option (List UInt16) :=
  (impl.decomposeTerminated s .empty).map (·.text)

theorem decomposeText_eq (hwf : impl.WellFormed) (s : List UInt16) :
    impl.decomposeText s = some (impl.nfd s) := by
  obtain ⟨b, h1, h2⟩ := decompose_holds hwf s
  rw [decomposeText, h1, Option.map_some, h2]

/-- `decompose()` is canonical decomposition: it writes the full mappings in canonical order, they
do not change any more unless surrogates have been joined, and the quick check returns the end of a
string exactly if it does not change, otherwise a place where decomposition can start again. -/
theorem decompose_is_canonical (hwf : impl.WellFormed) :
    (∀ s, impl.decomposeText s = some (impl.nfd s)) ∧
      (∀ s, impl.decomposeTextTerminated s = some (impl.nfd (s.takeWhile (· ≠ 0)))) ∧
      (∀ s t, KeepsApart impl (codePoints s) → impl.decomposeText s = some t →
        impl.decomposeText t = some t) ∧
      (∀ s, ∃ p, impl.decomposeSpan s = some p ∧ IsSpan impl s p) ∧
      ∀ s, ∃ p, impl.decomposeSpanTerminated s = some p ∧
        IsSpan impl (s.takeWhile (· ≠ 0)) p := by
  refine ⟨decomposeText_eq hwf, fun s => ?_, fun s t hapart hs => ?_, decomposeSpan_isSpan hwf,
    decomposeSpanTerminated_isSpan hwf⟩
  · obtain ⟨b, h1, h2⟩ := decomposeTerminated_holds hwf s
    rw [decomposeTextTerminated, h1, Option.map_some, h2]
  · rw [decomposeText_eq hwf, Option.some.injEq] at hs
    rw [decomposeText_eq hwf, ← hs, hwf.nfd_nfd hapart]

/-- U+00AD is deleted, U+1D15E is decomposed to U+1D157 and U+1D165. -/
def deletingData : Normalizer2Impl where
  minDecompNoCP := 0xad
  minYesNo := 2
  limitNoNo := 20
  minMaybeYes := 0xfe00
  getNorm16 c := if c = 0xad then 4 else if c = 0x1d15e then 6 else if c = 0x1d165 then 0xffd8
    else 0
  leadNorm16 c := if c = 0xd834 then 19 else 0
  extraData i := [0, 0, 0, 0, 0x20, 0, 0xd804, 0xd834, 0xdd57, 0xd834, 0xdd65].getD i 0

theorem deletingData_inert {c : Nat} (h1 : c ≠ 0xad) (h2 : c ≠ 0x1d15e) (h3 : c ≠ 0x1d165) :
    deletingData.Inert c := by
  have h : deletingData.getNorm16 c = 0 := by
    simp only [deletingData]
    rw [if_neg h1, if_neg h2, if_neg h3]
  refine ⟨?_, ?_⟩
  · rw [h]
    decide
  · rw [ccc, h]
    decide

theorem deletingData_decomposes {c : Nat} (h : deletingData.decomposes c = true) :
    c = 0xad ∨ c = 0x1d15e := by
  by_contra hcon
  rw [not_or] at hcon
  by_cases h3 : c = 0x1d165
  · rw [h3] at h
    exact absurd h (by decide)
  · exact decomposes_iff.mp h (deletingData_inert hcon.1 hcon.2 h3).yes

theorem deletingData_wellFormed : deletingData.WellFormed where
  minYesNo_le := by decide
  minMaybeYes_le := by decide
  low := by
    intro c hc hlt hlead
    have hlt' : c < 0xad := hlt
    exact deletingData_inert (by omega) (by omega) (by omega)
  lead := by
    intro lead trail hlead htrail hlow
    have hl := lead.toNat_lt
    have ht := trail.toNat_lt
    have hne : lead.toNat ≠ 0xd834 := by
      intro heq
      rw [heq] at hlow
      exact absurd hlow (by decide)
    rw [u16IsLead_iff (by omega)] at hlead
    rw [u16IsTrail_iff (by omega)] at htrail
    have hvalue := @u16GetSupplementary_eq lead.toNat trail.toNat
    exact deletingData_inert (by omega) (by omega) (by omega)
  surrogate := by
    intro c hc
    refine deletingData_inert ?_ ?_ ?_
    · rintro rfl
      exact absurd hc (by decide)
    · rintro rfl
      exact absurd hc (by decide)
    · rintro rfl
      exact absurd hc (by decide)
  lowCC := by
    intro c hc
    rw [minCccLcccCP] at hc
    by_cases h : c = 0xad
    · rw [h]
      decide
    · exact (deletingData_inert h (by omega) (by omega)).zero
  hangul := by
    intro c _ hno hhangul
    rcases deletingData_decomposes hno with rfl | rfl
    · exact absurd hhangul (by decide)
    · exact absurd hhangul (by decide)
  algorithmic := by
    refine ⟨fun _ => 0, fun _ => Nat.succ_pos _, fun c _ hno _ halgorithmic => ?_⟩
    rcases deletingData_decomposes hno with rfl | rfl
    · exact absurd halgorithmic (by decide)
    · exact absurd halgorithmic (by decide)
  mapping := by
    intro c _ hno _ _
    rcases deletingData_decomposes hno with rfl | rfl
    · have htext : codePoints (deletingData.mappingText (deletingData.getNorm16 0xad)) = [] := by
        decide
      refine ⟨?_, ?_, ?_, ?_, ?_⟩
      · simp [htext]
      · simp [htext]
      · rw [htext]
        exact List.isChain_nil
      · simp [htext]
      · simp [htext]
    have htext : codePoints (deletingData.mappingText (deletingData.getNorm16 0x1d15e)) =
        [0x1d157, 0x1d165] := by
      decide
    refine ⟨?_, ?_, ?_, ?_, ?_⟩
    · rw [htext]
      intro c hc
      rcases List.mem_pair.mp hc with rfl | rfl
      · exact ⟨by decide, by decide⟩
      · exact ⟨by decide, by decide⟩
    · rw [htext]
      decide
    · rw [htext, IsOrdered, List.isChain_pair]
      exact .inr (by decide)
    · rw [htext]
      intro c hc
      obtain rfl : 0x1d157 = c := by simpa using hc
      decide
    · rw [htext]
      intro c hc
      obtain rfl : 0x1d165 = c := by simpa using hc
      decide

theorem decompose_is_canonical_of_deletingData : deletingData.WellFormed ∧
    ∀ s, deletingData.decomposeText s = some (deletingData.nfd s) :=
  ⟨deletingData_wellFormed, (decompose_is_canonical deletingData_wellFormed).1⟩

/-- Two surrogates are joined where a code point is deleted, and the new one decomposes. -/
theorem decompose_joins_surrogates : deletingData.WellFormed ∧
    deletingData.decomposeText [0xd834, 0xad, 0xdd5e] = some [0xd834, 0xdd5e] ∧
    deletingData.decomposeText [0xd834, 0xdd5e] = some [0xd834, 0xdd57, 0xd834, 0xdd65] :=
  ⟨deletingData_wellFormed, by decide, by decide⟩

end Normalizer2Impl

end Icu.Normalizer
