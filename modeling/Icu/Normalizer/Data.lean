import Icu.Normalizer.Model
import Icu.Utf16.Joining
import Icu.Lib.CanonicalOrder

/-! # Normalization data

What the data say about code points, and what is required of them: the conditions that the
data builder checks or establishes.
-/

namespace Icu.Normalizer

open Utf16 Lib.CanonicalOrder

namespace Normalizer2Impl

variable (impl : Normalizer2Impl)

/-- The canonical combining class of a code point that does not decompose. -/
def ccc (c : Nat) : Nat := getCCFromYesOrMaybe (impl.getNorm16 c)

def decomposes (c : Nat) : Bool := !impl.isDecompYes (impl.getNorm16 c)

def fullMapping : Nat → Nat → List Nat
  | 0, _ => []
  | fuel + 1, c =>
    if impl.isDecompYes (impl.getNorm16 c) then [c]
    else if impl.isHangul (impl.getNorm16 c) then (Hangul.decompose c).map (·.toNat)
    else if impl.isDecompNoAlgorithmic (impl.getNorm16 c) then
      fullMapping fuel (impl.mapAlgorithmic c (impl.getNorm16 c))
    else codePoints (impl.mappingText (impl.getNorm16 c))

/-- The full mapping of a code point, which is itself if it does not decompose. -/
def mapping (c : Nat) : List Nat := impl.fullMapping mappingFuel c

def nfd (s : List UInt16) : List UInt16 :=
  utf16 (canonicalOrder impl.ccc ((codePoints s).flatMap impl.mapping))

structure Inert (c : Nat) : Prop where
  yes : impl.isDecompYes (impl.getNorm16 c) = true
  zero : impl.ccc c = 0

/-- The mapping in the extra data is a full mapping, with the combining classes of its ends. -/
structure IsMapping (norm16 : Nat) : Prop where
  scalar : ∀ c ∈ codePoints (impl.mappingText norm16), IsScalar c
  yes : ∀ c ∈ codePoints (impl.mappingText norm16), impl.isDecompYes (impl.getNorm16 c) = true
  ordered : IsOrdered impl.ccc (codePoints (impl.mappingText norm16))
  leadCC : ∀ c, (codePoints (impl.mappingText norm16)).head? = some c →
    impl.mappingLeadCC norm16 = impl.ccc c
  trailCC : ∀ c, (codePoints (impl.mappingText norm16)).getLast? = some c →
    impl.mappingTrailCC norm16 = impl.ccc c

structure WellFormed : Prop where
  minYesNo_le : impl.minYesNo ≤ impl.minMaybeYes
  minMaybeYes_le : impl.minMaybeYes ≤ minNormalMaybeYes
  /-- Code units below the minimum have irrelevant data. -/
  low : ∀ c < 0x10000, c < impl.minDecompNoCP → u16IsLead c = false → impl.Inert c
  /-- The value of a lead surrogate code unit stands for all its supplementary code points. -/
  lead : ∀ lead trail : UInt16, u16IsLead lead.toNat = true → u16IsTrail trail.toNat = true →
    lead.toNat < impl.minDecompNoCP ∨
      impl.isMostDecompYesAndZeroCC (impl.leadNorm16 lead.toNat) = true →
    impl.Inert (u16GetSupplementary lead.toNat trail.toNat)
  surrogate : ∀ c, uIsSurrogate c = true → impl.Inert c
  lowCC : ∀ c < minCccLcccCP, impl.ccc c = 0
  hangul : ∀ c ≤ 0x10ffff, impl.decomposes c = true → impl.isHangul (impl.getNorm16 c) = true →
    ∀ u ∈ Hangul.decompose c, impl.Inert u.toNat ∧ IsScalar u.toNat
  /-- Mappings to single code points end. -/
  algorithmic : ∃ rank : Nat → Nat, (∀ c, rank c < 0x110000) ∧
    ∀ c ≤ 0x10ffff, impl.decomposes c = true → impl.isHangul (impl.getNorm16 c) = false →
      impl.isDecompNoAlgorithmic (impl.getNorm16 c) = true →
      IsScalar (impl.mapAlgorithmic c (impl.getNorm16 c)) ∧
        rank (impl.mapAlgorithmic c (impl.getNorm16 c)) < rank c
  mapping : ∀ c ≤ 0x10ffff, impl.decomposes c = true → impl.isHangul (impl.getNorm16 c) = false →
    impl.isDecompNoAlgorithmic (impl.getNorm16 c) = false → impl.IsMapping (impl.getNorm16 c)

variable {impl} {c : Nat}

theorem Inert.mapping_eq (h : impl.Inert c) : impl.mapping c = [c] := by
  rw [mapping, mappingFuel, fullMapping, if_pos h.yes]

theorem mapping_of_yes (h : impl.isDecompYes (impl.getNorm16 c) = true) : impl.mapping c = [c] := by
  rw [mapping, mappingFuel, fullMapping, if_pos h]

theorem WellFormed.most (h : impl.WellFormed) {norm16 : Nat}
    (hmost : impl.isMostDecompYesAndZeroCC norm16 = true) :
    impl.isDecompYes norm16 = true ∧ getCCFromYesOrMaybe norm16 = 0 := by
  have h1 := h.minYesNo_le
  have h2 := h.minMaybeYes_le
  rw [minNormalMaybeYes] at h2
  simp only [isMostDecompYesAndZeroCC, Bool.or_eq_true, decide_eq_true_eq, beq_iff_eq,
    minNormalMaybeYes, jamoVT] at hmost
  simp only [isDecompYes, Bool.or_eq_true, decide_eq_true_eq, getCCFromYesOrMaybe,
    minNormalMaybeYes]
  rcases hmost with (hlt | rfl) | rfl
  · exact ⟨.inl hlt, if_neg (by omega)⟩
  · exact ⟨.inr h2, rfl⟩
  · exact ⟨.inr (by omega), rfl⟩

theorem fullMapping_of_decomposes (h : impl.WellFormed) : ∀ (fuel : Nat) {c : Nat}, c ≤ 0x10ffff →
    impl.decomposes c = true → ∀ d ∈ impl.fullMapping fuel c,
      IsScalar d ∧ impl.isDecompYes (impl.getNorm16 d) = true
  | 0, _, _, _ => by simp [fullMapping]
  | fuel + 1, c, hc, hno => by
    have hno' : ¬ impl.isDecompYes (impl.getNorm16 c) = true := by
      rw [decomposes, Bool.not_eq_true'] at hno
      rw [hno]
      exact Bool.false_ne_true
    rw [fullMapping, if_neg hno']
    split
    · next hhangul =>
      intro d hd
      obtain ⟨u, hu, rfl⟩ := List.mem_map.mp hd
      obtain ⟨hinert, hscalar⟩ := h.hangul c hc hno hhangul u hu
      exact ⟨hscalar, hinert.yes⟩
    · next hhangul =>
      rw [Bool.not_eq_true] at hhangul
      split
      · next halgorithmic =>
        obtain ⟨rank, -, hrank⟩ := h.algorithmic
        obtain ⟨hscalar, -⟩ := hrank c hc hno hhangul halgorithmic
        by_cases hyes : impl.isDecompYes (impl.getNorm16
            (impl.mapAlgorithmic c (impl.getNorm16 c))) = true
        · intro d hd
          cases fuel with
          | zero => simp [fullMapping] at hd
          | succ fuel =>
            rw [fullMapping, if_pos hyes, List.mem_singleton] at hd
            rw [hd]
            exact ⟨hscalar, hyes⟩
        · exact fullMapping_of_decomposes h fuel hscalar.le (by
            rw [decomposes, Bool.not_eq_true', ← Bool.not_eq_true]
            exact hyes)
      · next halgorithmic =>
        rw [Bool.not_eq_true] at halgorithmic
        have hmapping := h.mapping c hc hno hhangul halgorithmic
        exact fun d hd => ⟨hmapping.scalar d hd, hmapping.yes d hd⟩

/-- A full mapping does not decompose further. -/
theorem WellFormed.mapping_yes (h : impl.WellFormed) (hc : c ≤ 0x10ffff) {d : Nat}
    (hd : d ∈ impl.mapping c) : impl.isDecompYes (impl.getNorm16 d) = true ∧ d ≤ 0x10ffff := by
  by_cases hyes : impl.isDecompYes (impl.getNorm16 c) = true
  · rw [mapping_of_yes hyes, List.mem_singleton] at hd
    rw [hd]
    exact ⟨hyes, hc⟩
  obtain ⟨h1, h2⟩ := fullMapping_of_decomposes h mappingFuel hc (by
    rw [decomposes, Bool.not_eq_true', ← Bool.not_eq_true]
    exact hyes) d hd
  exact ⟨h2, h1.le⟩

theorem WellFormed.mapping_surrogate (h : impl.WellFormed) (hc : c ≤ 0x10ffff) :
    (uIsSurrogate c = true → impl.mapping c = [c]) ∧
      (uIsSurrogate c = false → ∀ d ∈ impl.mapping c, IsScalar d) := by
  refine ⟨fun hs => (h.surrogate c hs).mapping_eq, fun hs d hd => ?_⟩
  by_cases hyes : impl.isDecompYes (impl.getNorm16 c) = true
  · rw [mapping_of_yes hyes, List.mem_singleton] at hd
    rw [hd]
    exact ⟨hc, hs⟩
  · exact (fullMapping_of_decomposes h mappingFuel hc (by
      rw [decomposes, Bool.not_eq_true', ← Bool.not_eq_true]
      exact hyes) d hd).1

end Normalizer2Impl

end Icu.Normalizer
