import Icu.Punycode.Encoder

/-! # Punycode round trips

A well-formed string that is not too long comes back from its Punycode form. A string that can
be decoded comes back from what it decodes to, with the extended part in lower case, unless the
table look-up has cut off the upper half of one of its units.
-/

namespace Icu.Punycode

open Lib.InsertionCode Utf16

variable {destCapacity : Nat} {dest basic src : List UInt16} {r : Converted}

theorem isSuccess_uTerminateUChars {length : Nat} :
    (uTerminateUChars dest destCapacity length).err.isSuccess = true ↔ length ≤ destCapacity := by
  unfold uTerminateUChars
  split
  · next hlt => exact ⟨fun _ => Nat.le_of_lt hlt, fun _ => rfl⟩
  split
  · next heq => exact ⟨fun _ => Nat.le_of_eq heq, fun _ => rfl⟩
  refine ⟨fun h => ?_, fun h => by omega⟩
  cases h

def Yields (result : Except Failure Converted) (dest : List UInt16) : Prop :=
  ∃ r, result = .ok r ∧ r.err.isSuccess = true ∧ r.dest = dest ∧ r.destLength = dest.length

theorem yields_uTerminateUChars (h : dest.length ≤ destCapacity) :
    Yields (.ok (uTerminateUChars dest destCapacity dest.length)) dest :=
  ⟨_, rfl, isSuccess_uTerminateUChars.mpr h, rfl, rfl⟩

/-- A well-formed string is encoded, and its Punycode form is decoded as the string. -/
theorem uStrFromPunycode_uStrToPunycode {s : List UInt16} (hs : WellFormed s)
    (hlen : (codePoints s).length ≤ maxCpCount) :
    ∃ encoded, (∀ destCapacity, encoded.length ≤ destCapacity →
        Yields (uStrToPunycode s destCapacity) encoded) ∧
      ∀ destCapacity, s.length ≤ destCapacity →
        Yields (uStrFromPunycode encoded destCapacity) s := by
  obtain ⟨deltas, hsmall, hlist, hencode⟩ := uStrToPunycode_utf16 hs hlen
  have hlength := congrArg List.length hlist
  rw [Cursor.length_run, startCursor, List.length_map] at hlength
  rw [utf16_codePoints] at hencode
  refine ⟨punycode (basicUnits (codePoints s)) deltas, fun destCapacity hroom => ?_,
    fun destCapacity hroom => ?_⟩
  · rw [hencode, List.take_of_length_le hroom]
    exact yields_uTerminateUChars hroom
  have hdecode := @uStrFromPunycode_writeDeltas _ deltas destCapacity
    (basicUnits_all (codePoints s)) (by omega) hsmall (by rw [hlist]; exact hs)
    (by rw [hlist, utf16_codePoints]; exact hroom)
  rw [hdecode, hlist, utf16_codePoints]
  exact yields_uTerminateUChars hroom

theorem uStrFromPunycode_uStrToPunycode_mixed : WellFormed [0x62, 0xfc, 0xd800, 0xdc00, 0x63] ∧
      ∃ encoded, Yields (uStrToPunycode [0x62, 0xfc, 0xd800, 0xdc00, 0x63] encoded.length) encoded ∧
        Yields (uStrFromPunycode encoded 5) [0x62, 0xfc, 0xd800, 0xdc00, 0x63] := by
  have hs : WellFormed [0x62, 0xfc, 0xd800, 0xdc00, 0x63] := by
    unfold WellFormed
    decide
  obtain ⟨encoded, hencode, hdecode⟩ := uStrFromPunycode_uStrToPunycode hs (by decide)
  exact ⟨hs, encoded, hencode _ (Nat.le_refl _), hdecode 5 (Nat.le_refl _)⟩

def foldExtended (src : List UInt16) : List UInt16 :=
  src.take (extendedStart src) ++ (src.drop (extendedStart src)).map toLower

/-- A string is ASCII, and encoding reproduces it up to the case of letters in the extended
part. -/
def Reproduces (src dest : List UInt16) : Prop :=
  (∀ u ∈ src, isBasic u = true) ∧
    ∀ destCapacity, src.length ≤ destCapacity →
      Yields (uStrToPunycode dest destCapacity) (foldExtended src)

theorem length_foldExtended (src : List UInt16) : (foldExtended src).length = src.length := by
  rw [foldExtended, List.length_append, List.length_map, ← List.length_append,
    List.take_append_drop]

theorem toLower_lt {u : UInt16} (h : (toLower u).toNat < 0x80) : u.toNat < 0x80 := by
  unfold toLower at h
  split at h
  · omega
  · exact h

theorem isBasic_closeBasic (hbasic : basic.all isBasic = true) :
    ∀ u ∈ closeBasic basic, isBasic u = true := by
  rw [List.all_eq_true] at hbasic
  unfold closeBasic
  split
  · refine List.forall_mem_append.mpr ⟨hbasic, fun u hu => ?_⟩
    rw [List.mem_singleton.mp hu]
    decide
  · exact hbasic

theorem basicUnits_run (hbasic : basic.all isBasic = true) (deltas : List Nat) :
    basicUnits ((startCursor basic).run deltas).list = basic := by
  have hfilter := @Cursor.filter_run (startCursor basic) 0x80 (Nat.le_refl _) deltas
  have hall : (startCursor basic).list.filter (· < 0x80) = basic.map (·.toNat) :=
    List.filter_eq_self.mpr fun x hx => decide_eq_true (lt_of_mem_basic hbasic x hx)
  refine (List.map_injective_iff.mpr (fun a b h => UInt16.toNat.inj h)) ?_
  rw [map_toNat_basicUnits, hfilter, hall]

theorem destLength_le_of_isSuccess
    (h : uStrFromPunycode src destCapacity = .ok r) (hok : r.err.isSuccess = true) :
    r.destLength ≤ destCapacity := by
  simp only [uStrFromPunycode] at h
  split at h
  · cases h
  split at h
  · cases h
  rw [Except.ok.injEq] at h
  subst h
  exact isSuccess_uTerminateUChars.mp hok

theorem reproduces_of_bytes
    (h : uStrFromPunycode src destCapacity = .ok r) (hok : r.err.isSuccess = true)
    (hlen : (codePoints r.dest).length ≤ maxCpCount) (hbytes : ∀ u ∈ src, u.toNat < 0x100) :
    Reproduces src r.dest := by
  obtain ⟨basic, deltas, htake, hbasic, hdest, hscalar, hwrite⟩ :=
    uStrFromPunycode_eq_ok h (destLength_le_of_isSuccess h hok)
  rw [hdest, codePoints_utf16 hscalar] at hlen
  have hext := hwrite fun u hu => hbytes u (List.mem_of_mem_drop hu)
  refine ⟨fun u hu => ?_, fun destCapacity hroom => ?_⟩
  · rw [← List.take_append_drop (extendedStart src) src, List.mem_append, htake] at hu
    rcases hu with hu | hu
    · exact isBasic_closeBasic hbasic u hu
    have hmem : toLower u ∈ writeDeltas initialBias basic.length true deltas := by
      rw [hext]
      exact List.mem_map_of_mem hu
    obtain ⟨digit, hdigit, heq⟩ := mem_writeDeltas hmem
    have := digitToBasic_lt hdigit
    rw [← heq] at this
    exact decide_eq_true (toLower_lt this)
  -- The deltas of the encoder are those that were read, since they insert the same.
  obtain ⟨deltas', -, hlist, hencode⟩ := uStrToPunycode_utf16 hscalar hlen
  rw [basicUnits_run hbasic] at hlist hencode
  have hdeltas := (startCursor_sound hbasic).run_inj hlist
  have hfold : punycode basic deltas' = foldExtended src := by
    rw [hdeltas, punycode, hext, ← htake]
    rfl
  have hroom' : (foldExtended src).length ≤ destCapacity := by
    rw [length_foldExtended]
    exact hroom
  rw [hdest, hencode, hfold, List.take_of_length_le hroom']
  exact yields_uTerminateUChars hroom'

/-- A string that can be decoded is ASCII and is reproduced if and only if each unit fits into
the byte that the digit table is indexed with; and different such strings decode to different
strings. -/
theorem reproduces_iff_bytes {src : List UInt16} {destCapacity : Nat} {r : Converted}
    (h : uStrFromPunycode src destCapacity = .ok r) (hok : r.err.isSuccess = true)
    (hlen : (codePoints r.dest).length ≤ maxCpCount) :
    (Reproduces src r.dest ↔ ∀ u ∈ src, u.toNat < 0x100) ∧
      ∀ src' destCapacity', (∀ u ∈ src, u.toNat < 0x100) → (∀ u ∈ src', u.toNat < 0x100) →
        Yields (uStrFromPunycode src' destCapacity') r.dest → foldExtended src' =
        foldExtended src := by
  refine ⟨⟨fun hrep u hu => ?_, reproduces_of_bytes h hok hlen⟩, ?_⟩
  · have hlt : u.toNat < 0x80 := of_decide_eq_true (hrep.1 u hu)
    omega
  rintro src' destCapacity' hbytes hbytes' ⟨r', h', hok', hdest, -⟩
  have hrep := (reproduces_of_bytes h hok hlen hbytes).2 (src.length + src'.length) (by omega)
  have hrep' := (reproduces_of_bytes h' hok' (hdest ▸ hlen) hbytes').2 (src.length + src'.length)
    (by omega)
  rw [hdest] at hrep'
  obtain ⟨t, ht, -, hfold, -⟩ := hrep
  obtain ⟨t', ht', -, hfold', -⟩ := hrep'
  rw [ht, Except.ok.injEq] at ht'
  rw [← hfold, ← hfold', ht']

theorem reproduces_iff_bytes_upper : uStrFromPunycode [0x62, 0x68, 0x2d, 0x58, 0x4b, 0x41] 10 =
        .ok ⟨[0x62, 0xfc, 0x68], 3, .zeroError⟩ ∧
      Reproduces [0x62, 0x68, 0x2d, 0x58, 0x4b, 0x41] [0x62, 0xfc, 0x68] := by
  have h : uStrFromPunycode [0x62, 0x68, 0x2d, 0x58, 0x4b, 0x41] 10 =
      .ok ⟨[0x62, 0xfc, 0x68], 3, .zeroError⟩ := by decide
  have hbytes : ([0x62, 0x68, 0x2d, 0x58, 0x4b, 0x41] : List UInt16).all (·.toNat < 0x100) =
    true := by
    decide
  refine ⟨h, (reproduces_iff_bytes h (by decide) (by decide)).1.mpr fun u hu => ?_⟩
  exact of_decide_eq_true (List.all_eq_true.mp hbytes u hu)

/-- The unit U+0174 is read as `t`. -/
theorem not_reproduces_truncated :
    ∃ r, uStrFromPunycode [0x174, 0x64, 0x61] 10 = .ok r ∧ r.err.isSuccess = true ∧
      (codePoints r.dest).length ≤ maxCpCount ∧ ¬ Reproduces [0x174, 0x64, 0x61] r.dest ∧
      uStrFromPunycode [0x74, 0x64, 0x61] 10 = .ok r ∧
      foldExtended [0x74, 0x64, 0x61] ≠ foldExtended [0x174, 0x64, 0x61] := by
  refine ⟨⟨[0xfc], 1, .zeroError⟩, by decide, by decide, by decide, fun h =>
    ?_, by decide, by decide⟩
  exact absurd (h.1 0x174 List.mem_cons_self) (by decide)

end Icu.Punycode
