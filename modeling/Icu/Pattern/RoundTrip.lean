import Icu.Pattern.Surrogates

/-! # Patterns of sets are read back

The pattern of a set is read as a set with the same strings and the same code points, unless
surrogates meet in it.
-/

namespace Icu.Pattern

open Utf16 UnicodeSet Lib.RangeNotation Lib.InversionList

variable {set : UnicodeSet} {D : Set Int}

/-- The members of a set: strings are in order, and none of them is a single code point. -/
structure WellFormed (set : UnicodeSet) : Prop where
  list : IsInversionList set.list
  sorted : set.strings.Pairwise (· < ·)
  strings : ∀ s ∈ set.strings, s ≠ [] ∧ getSingleCP s < 0

theorem appendStrings_begins (escape : Bool) (strings : List (List UInt16)) :
    ∃ u more, appendStrings escape strings ++ [0x5d] = u :: more ∧ u ∈ [0x7b, 0x5d] := by
  cases strings with
  | nil => exact ⟨0x5d, [], rfl, by decide⟩
  | cons s strings => exact ⟨0x7b, _, rfl, by decide⟩

theorem denotes_clear (h : set.isFrozen = false) : Denotes set.clear ∅ where
  codePointSet := by
    rw [clear, h, if_neg Bool.false_ne_true]
    exact ⟨isInversionList_high, rfl, h, rfl⟩
  subset := Set.empty_subset _
  covers_iff c hc := by
    rw [clear, h, if_neg Bool.false_ne_true, covers_of_forall_lt (by simpa using lt_high_of_mem hc)]
    simp

theorem tracks_opened (invert : Bool) (h : set.isFrozen = false) :
    Tracks (opened invert set.clear) start where
  mode := rfl
  denotes := denotes_clear h
  op := rfl
  none _ := ⟨rfl, rfl⟩
  char l hl := by cases hl

theorem endFree_opening (invert : Bool) : EndFree (opening invert) := by
  intro u hu
  cases invert with
  | false =>
    rw [← Option.some.inj hu]
    decide
  | true =>
    rw [← Option.some.inj hu]
    decide

theorem run_itemsOfAll_hyphen {ws : List Written} {a a' : State Int} (ha : a.hyphen = false)
    (h : a.run (itemsOfAll ws) = some a') : a'.hyphen = false := by
  have hchar : ∀ {a a' : State Int} {c : Int}, a.read (.char c) = some a' → a'.hyphen = false := by
    intro a a' c h
    rw [State.read] at h
    split at h
    · cases h
      rfl
    split at h
    · split at h
      · cases h
        rfl
      · cases h
    · cases h
      rfl
  induction ws generalizing a with
  | nil =>
    cases h
    exact ha
  | cons w ws ih =>
    rw [itemsOfAll, List.flatMap_cons, State.run_append] at h
    obtain ⟨a₁, hw, h⟩ := Option.bind_eq_some_iff.mp h
    refine ih ?_ h
    rw [Written.items] at hw
    split at hw
    · obtain ⟨a₂, -, hw⟩ := Option.bind_eq_some_iff.mp hw
      obtain ⟨a₃, hread, hw⟩ := Option.bind_eq_some_iff.mp hw
      cases hw
      exact hchar hread
    · obtain ⟨a₂, hread, hw⟩ := Option.bind_eq_some_iff.mp hw
      cases hw
      exact hchar hread

theorem skipIgnored_end (text : List UInt16) (fuel : Nat) :
    skipIgnored text fuel text.length = text.length := by
  cases fuel with
  | zero => rfl
  | succ fuel =>
    have hcurrent : current text text.length = -1 := if_neg (Nat.lt_irrefl _)
    rw [skipIgnored, hcurrent]
    rfl

theorem skipWhiteSpace_end (text : List UInt16) :
    skipWhiteSpace text text.length = text.length := by
  rw [skipWhiteSpace, List.drop_length]
  rfl

theorem complement_strings (h : Denotes (withoutStrings set) D) :
    ∃ out, set.complement = some out ∧ out.strings = set.strings ∧
      Denotes (withoutStrings out) (UnicodeSet.codePoints \ D) := by
  obtain ⟨out, hout, hd⟩ := h.complement
  have hfrozen : set.isFrozen = false := h.codePointSet.thawed
  have hbogus : set.isBogus = false := h.codePointSet.sound
  have hfrozen' : (withoutStrings set).isFrozen = false := hfrozen
  have hbogus' : (withoutStrings set).isBogus = false := hbogus
  rw [complement, hfrozen', hbogus', Bool.or_self, if_neg Bool.false_ne_true] at hout
  rw [complement, hfrozen, hbogus, Bool.or_self, if_neg Bool.false_ne_true]
  have hlist : (withoutStrings set).list = set.list := rfl
  rw [hlist] at hout
  cases hl : set.list with
  | nil =>
    rw [hl] at hout
    cases hout
  | cons x xs =>
    rw [hl] at hout
    dsimp only at hout ⊢
    split at hout
    · next hx =>
      rw [if_pos hx]
      cases hout
      exact ⟨_, rfl, rfl, hd⟩
    · next hx =>
      rw [if_neg hx]
      cases hout
      exact ⟨_, rfl, rfl, hd⟩

section Apply

variable (propertyPattern : List UInt16 → Except UErrorCode (UnicodeSet × Nat))
  {target : UnicodeSet} {text : List UInt16}

/-- The code points of a pattern, from those of its ranges. -/
def ofRanges (invert : Bool) (D : Set Int) : Set Int := if invert then UnicodeSet.codePoints \ D
    else D

theorem parseLoop_generated (h : WellFormed set) (escape : Bool) (htarget : target.isFrozen = false)
    (htext : generatePattern set escape = some text)
    (nestedPattern : Nat → Except Failure (UnicodeSet × Nat)) :
    (start.run (itemsOfAll (join (listWritten escape (writtenList set)))) = none →
      ∃ e, parseLoop propertyPattern nestedPattern text (text.length + 1)
        ⟨0, .before, .none, 0, .none, false, target.clear⟩ = .error e) ∧
    ∀ a, start.run (itemsOfAll (join (listWritten escape (writtenList set)))) = some a →
      ∃ s, parseLoop propertyPattern nestedPattern text (text.length + 1)
          ⟨0, .before, .none, 0, .none, false, target.clear⟩ = .ok s ∧ s.mode = .after ∧
        s.pos = text.length ∧ s.invert = isInverted set ∧ s.set.strings = set.strings ∧
        Denotes (withoutStrings s.set) a.total := by
  obtain ⟨u, more, hrest, hu⟩ := appendStrings_begins escape set.strings
  have hfacts : ∀ u ∈ ([0x7b, 0x5d] : List UInt16), u ≠ 0x5c ∧ u16IsTrail u.toNat = false :=
    List.all_iff_forall_prop.mp (by decide)
  have hwritten := asWritten_listWritten escape (boundaries_writtenList h.list)
  have hseparate := separate_join hwritten
  have hnoJoin : NoJoin (appendStrings escape set.strings ++ [0x5d]) := by
    rw [hrest]
    exact noJoin_unit (hfacts u hu).1 (hfacts u hu).2 more
  have hfirst : ∀ w, (join (listWritten escape (writtenList set))).head? = some w →
      w.hyphen = false := by
    intro w hw
    obtain ⟨v, hv, heq⟩ := head_join hw
    rw [heq]
    exact (head_listWritten escape hv).1
  have hbegins : Begins propertyPattern nestedPattern (opening (isInverted set))
      (unitsOfAll (join (listWritten escape (writtenList set))) ++
        (appendStrings escape set.strings ++ [0x5d])) := by
    refine begins_written propertyPattern nestedPattern hseparate hnoJoin hfirst
      (endFree_opening _) ?_
    rw [hrest]
    exact begins_unit propertyPattern nestedPattern hu
  rw [generatePattern_eq h.list, ← unitsOfAll_join, Option.some.injEq] at htext
  generalize join (listWritten escape (writtenList set)) = ws at *
  obtain ⟨fuel, hopen, hfuel⟩ := parseLoop_open propertyPattern nestedPattern (isInverted set)
    target.clear hbegins
  have hreads := parseLoop_written propertyPattern nestedPattern hseparate hnoJoin
    (fun _ _ _ _ => endFree_opening (isInverted set)) (tracks_opened (isInverted set) htarget) rfl
      hfuel
  rw [htext] at hopen hreads
  rw [hopen]
  constructor
  · intro hnone
    rw [hnone] at hreads
    exact hreads
  intro a hrun
  rw [hrun] at hreads
  obtain ⟨fuel₁, s₁, hreached⟩ := hreads
  have hpending := hreached.tracks.pending (run_itemsOfAll_hyphen rfl hrun)
  have hsplit : text = opening (isInverted set) ++ unitsOfAll ws ++
      (appendStrings escape set.strings ++ [0x5d]) := by rw [← htext, List.append_assoc]
  have hfuel₁ := hreached.fuel
  have hloop₁ := hreached.loop
  rw [hsplit] at hfuel₁
  obtain ⟨fuel₂, s₂, hloop₂, hpending₂, hpos₂, hinvert₂, hfuel₂⟩ :=
    @parseLoop_strings propertyPattern
    nestedPattern _ [0x5d] s₁ a.total [] escape set.strings h.strings h.sorted hpending hreached.pos
    fuel₁ hfuel₁
  have hsplit₂ : text = opening (isInverted set) ++ unitsOfAll ws ++
      appendStrings escape set.strings ++ [0x5d] := by rw [hsplit, List.append_assoc _ _ [0x5d]]
  rw [← hsplit] at hloop₂ hfuel₂
  rw [hsplit₂] at hfuel₂
  obtain ⟨s₃, hloop₃, hmode, hpos₃, hinvert₃, hstrings, hd⟩ := parseLoop_close propertyPattern
    nestedPattern hpending₂ hpos₂ hfuel₂
  rw [← hsplit₂] at hloop₃ hpos₃
  refine ⟨s₃, ?_, hmode, hpos₃, ?_, hstrings, hd⟩
  · rw [hloop₁, hloop₂, hloop₃]
  rw [hinvert₃, hinvert₂, hreached.invert]
  rfl

theorem applyPattern_generated (h : WellFormed set) (escape : Bool)
    (htarget : target.isFrozen = false) (htext : generatePattern set escape = some text) :
    (start.run (itemsOfAll (join (listWritten escape (writtenList set)))) = none →
      ∃ e, applyPattern propertyPattern target text = .error e) ∧
    ∀ a, start.run (itemsOfAll (join (listWritten escape (writtenList set)))) = some a →
      a.total ⊆ UnicodeSet.codePoints ∧
      ∃ out, applyPattern propertyPattern target text = .ok out ∧ out.strings = set.strings ∧
        Denotes (withoutStrings out) (ofRanges (isInverted set) a.total) := by
  have hparse := parseLoop_generated propertyPattern h escape htarget htext
    (applyPatternAt propertyPattern text text.length .empty)
  rw [applyPattern, htarget, if_neg Bool.false_ne_true, applyPatternAt]
  constructor
  · intro hnone
    obtain ⟨e, he⟩ := hparse.1 hnone
    rw [he]
    exact ⟨e, rfl⟩
  intro a hrun
  obtain ⟨s, hs, hmode, hpos, hinvert, hstrings, hd⟩ := hparse.2 a hrun
  have hbogus : ∀ {out : UnicodeSet} {D : Set Int}, Denotes (withoutStrings out) D →
      ¬ out.isBogus = true := by
    intro out D hd
    have hsound : out.isBogus = false := hd.codePointSet.sound
    rw [hsound]
    exact Bool.false_ne_true
  refine ⟨hd.subset, ?_⟩
  rw [hs]
  simp only [bind, Except.bind]
  rw [if_neg (not_not.mpr hmode), hpos, skipIgnored_end, hinvert]
  cases isInverted set with
  | true =>
    obtain ⟨out, hout, hout_strings, hout_denotes⟩ := complement_strings hd
    refine ⟨out, ?_, hout_strings.trans hstrings, hout_denotes⟩
    rw [if_pos rfl, hout]
    simp only [lift]
    rw [if_neg (hbogus hout_denotes)]
    simp only
    rw [skipWhiteSpace_end, if_neg (not_not.mpr rfl)]
    rfl
  | false =>
    refine ⟨s.set, ?_, hstrings, hd⟩
    rw [if_neg Bool.false_ne_true, if_neg (hbogus hd)]
    simp only
    rw [skipWhiteSpace_end, if_neg (not_not.mpr rfl)]
    rfl

end Apply

theorem ofRanges_eq_iff (h : IsInversionList set.list) (hD : D ⊆ UnicodeSet.codePoints) :
    ofRanges (isInverted set) D = listed set.list ↔ D = listed (writtenList set) := by
  rw [ofRanges, writtenList]
  cases hinverted : isInverted set with
  | false => exact Iff.rfl
  | true =>
    obtain ⟨l, hlist, -⟩ := list_of_isInverted h hinverted
    have hcomplement : listed set.list = UnicodeSet.codePoints \ listed set.list.tail := by
      ext c
      rw [hlist, List.tail_cons, Set.mem_sdiff]
      simp only [listed, Set.mem_ofPred_eq, mem_codePoints_iff]
      by_cases hc : 0 ≤ c ∧ c ≤ 0x10ffff
      · simp [hc, covers_cons]
      · simp [hc]
    have hsub : listed set.list.tail ⊆ UnicodeSet.codePoints := fun c hc => hc.1
    rw [if_pos rfl, if_pos rfl, hcomplement]
    constructor
    · intro heq
      rw [← Set.sdiff_sdiff_cancel_left hD, heq, Set.sdiff_sdiff_cancel_left hsub]
    · intro heq
      rw [heq]

/-- A set comes back from its pattern if and only if surrogates do not meet in the ranges that the
pattern lists. -/
theorem applyPattern_generatePattern_iff
    (propertyPattern : List UInt16 → Except UErrorCode (UnicodeSet × Nat)) (set : UnicodeSet)
    (h : WellFormed set) (escape : Bool) (target : UnicodeSet) (htarget : target.isFrozen = false) :
    (∃ text out, generatePattern set escape = some text ∧
      applyPattern propertyPattern target text = .ok out ∧ out.beq set = true) ↔
        ¬ SurrogatesMeet (listed (writtenList set)) := by
  have hb := boundaries_writtenList h.list
  have htext := generatePattern_eq h.list escape
  have happly := applyPattern_generated propertyPattern h escape htarget htext
  have hset : Denotes ⟨set.list, [], none, false⟩ (listed set.list) :=
    ⟨⟨h.list, rfl, rfl, rfl⟩, fun c hc => hc.1, fun c hc => ⟨fun hcov => ⟨hc, hcov⟩, fun hmem =>
      hmem.2⟩⟩
  rw [← run_join_iff escape hb]
  cases hrun : start.run (itemsOfAll (join (listWritten escape (writtenList set)))) with
  | none =>
    obtain ⟨e, he⟩ := happly.1 hrun
    constructor
    · rintro ⟨text, out, htext', hout, -⟩
      rw [htext, Option.some.injEq] at htext'
      rw [htext', hout] at he
      cases he
    · rintro ⟨a, ha, -⟩
      cases ha
  | some a =>
    obtain ⟨hsub, out, hout, hstrings, hd⟩ := happly.2 a hrun
    have hbeq : out.beq set = true ↔ a.total = listed (writtenList set) := by
      rw [← ofRanges_eq_iff h.list hsub, ← hd.beq_iff hset]
      simp [UnicodeSet.beq, hstrings, withoutStrings]
    constructor
    · rintro ⟨text, out', htext', hout', hbeq'⟩
      rw [htext, Option.some.injEq] at htext'
      rw [htext', hout', Except.ok.injEq] at hout
      rw [hout] at hbeq'
      exact ⟨a, rfl, hbeq.mp hbeq'⟩
    · rintro ⟨a', ha', htotal⟩
      rw [Option.some.inj ha'] at hbeq
      exact ⟨_, out, htext, hout, hbeq.mpr htotal⟩

/-- The letters `a` to `z` and a string. -/
def letters : UnicodeSet := ⟨[0x61, 0x7b, 0x110000], [[0x61, 0x62]], none, false⟩

theorem wellFormed_letters : WellFormed letters where
  list := ⟨by decide, by decide, by decide⟩
  sorted := by decide
  strings := by decide

theorem applyPattern_generatePattern_letters :
    WellFormed letters ∧ UnicodeSet.empty.isFrozen = false ∧
      ∃ text out, generatePattern letters true = some text ∧
        applyPattern (fun _ => .error .illegalArgumentError) .empty text = .ok out ∧
        out.beq letters = true := by
  refine ⟨wellFormed_letters, rfl, ?_⟩
  refine (applyPattern_generatePattern_iff _ letters wellFormed_letters true .empty rfl).mpr ?_
  rintro ⟨⟨c, ⟨-, hc⟩, hlead⟩, -⟩
  have hlist : writtenList letters = [0x61, 0x7b, 0x110000] := by decide
  rw [hlist, covers_cons, covers_cons, covers_of_forall_lt (by simp; omega)] at hc
  rw [decide_eq_true (by omega), decide_eq_true (by omega)] at hc
  cases hc

def unpaired : UnicodeSet := ⟨[0xd83d, 0xd83e, 0xde00, 0xde01, 0x110000], [], none, false⟩

/-- The two are written as one code point. -/
theorem applyPattern_generatePattern_unpaired :
    WellFormed unpaired ∧ generatePattern unpaired false = some [0x5b, 0xd83d, 0xde00, 0x5d] ∧
      ∃ out, applyPattern (fun _ => .error .illegalArgumentError) .empty
      [0x5b, 0xd83d, 0xde00, 0x5d] =
        .ok out ∧ out.list = [0x1f600, 0x1f601, 0x110000] ∧ out.beq unpaired = false := by
  refine ⟨⟨⟨by decide, by decide, by decide⟩, by decide, by decide⟩, by decide, ?_⟩
  refine ⟨⟨[0x1f600, 0x1f601, 0x110000], [], none, false⟩, ?_, rfl, by decide⟩
  rfl

end Icu.Pattern
