import Icu.Scsu.Decoder
import Mathlib.Data.Fintype.Basic
import Mathlib.Logic.Equiv.Basic

/-! # The windows of the SCSU encoder

The encoder keeps the use of its windows in an array that stays a permutation, so that the
search for a window ends. No window contains surrogates, and each window that it defines has a
code that the decoder turns into the same offset.
-/

namespace Icu.Scsu

open Utf16 Lib

theorem get_setAt {α : Type} (array : Vector α 8) (i : Window) (x : α) :
    (setAt array i x).get = Function.update array.get i x := by
  funext j
  have hget : (setAt array i x).get j = (array.set i.val x i.isLt)[j.val] := rfl
  rw [hget, Vector.getElem_set]
  by_cases h : i.val = j.val
  · rw [if_pos h, Fin.ext h, Function.update_self]
  rw [if_neg h, Function.update_of_ne fun he => h (congrArg Fin.val he.symm)]
  rfl

/-- `windowUse[]` is a permutation of the windows. -/
def Encoder.UsesAll (scsu : Encoder) : Prop := Function.Bijective scsu.windowUse.get

section Use

variable {windowUse : Vector Window 8} {next window : Window}

theorem sub_one_sub_lt : ∀ {i k : Window}, i ≠ k → (i - 1 - k).val < (i - k).val := by decide

theorem get_findUse (h : ∃ k, windowUse.get k = window) :
    windowUse.get (findUse windowUse next window) = window := by
  obtain ⟨k, hk⟩ := h
  -- Each step goes nearer to the index of the window.
  have hnearer : ∀ {i i' : Window},
      (if windowUse.get i ≠ window then some (i - 1) else none) = some i' →
      (i' - k).val < (i - k).val := by
    intro i i' hi
    split at hi
    · next hne =>
      cases hi
      refine sub_one_sub_lt ?_
      rintro rfl
      exact hne hk
    · cases hi
  have hstop := @Program.exec_halts Window _ (fun i => (i - k).val) hnearer 8 (next - 1)
    (next - 1 - k).isLt
  rw [findUse]
  by_contra hne
  rw [if_pos hne] at hstop
  cases hstop

theorem moveUse_bijective {s : Vector Window 8 × Window × Window} (fuel : Nat)
    (h : Function.Bijective (setAt s.1 s.2.1 window).get) :
    let s' := Program.exec (moveUse next) fuel s
    Function.Bijective (setAt s'.1 s'.2.1 window).get := by
  refine Program.exec_invariant (moveUse next) (I :=
    fun s => Function.Bijective (setAt s.1 s.2.1 window).get)
    ?_ fuel h
  rintro ⟨use, i, j⟩ s' hs hb
  rw [moveUse] at hs
  split at hs
  · cases hs
    -- The window and the one at `j` change places.
    have hswap : (setAt (setAt use i (use.get j)) j window).get =
        (setAt use i window).get ∘ Equiv.swap i j := by
      funext k
      rw [get_setAt, get_setAt, get_setAt, Function.comp_apply]
      by_cases hk : k = j
      · subst hk
        rw [Function.update_self, Equiv.swap_apply_right, Function.update_self]
      rw [Function.update_of_ne hk]
      by_cases hki : k = i
      · subst hki
        rw [Function.update_self, Equiv.swap_apply_left, Function.update_of_ne (Ne.symm hk)]
      · rw [Function.update_of_ne hki, Equiv.swap_apply_of_ne_of_ne hki hk,
          Function.update_of_ne hki]
    rw [hswap]
    exact hb.comp (Equiv.bijective _)
  · cases hs

theorem usesAll_useDynamicWindow {scsu : Encoder} (h : scsu.UsesAll) (window : Window) :
    (scsu.useDynamicWindow window).UsesAll := by
  have hfound := @get_findUse _ scsu.nextWindowUseIndex _ (h.surjective window)
  refine moveUse_bijective 8 ?_
  rw [get_setAt]
  generalize findUse scsu.windowUse scsu.nextWindowUseIndex window = i at hfound
  rw [← hfound, Function.update_eq_self]
  exact h

end Use

/-! ## Characters in windows -/

theorem sub32_le_iff {c x n : Nat} (hc : c < 0x100000000) (hx : x < 0x100000000)
    (hn : x + n < 0x100000000) :
    sub32 c x ≤ n ↔ x ≤ c ∧ c ≤ x + n := by
  rw [sub32]
  omega

theorem sub32_lt_iff {c x n : Nat} (hc : c < 0x100000000) (hx : x < 0x100000000)
    (hn : x + n < 0x100000000) :
    sub32 c x < n ↔ x ≤ c ∧ c < x + n := by
  rw [sub32]
  omega

theorem sub32_eq {c x : Nat} (h : x ≤ c) (hc : c < 0x100000000) : sub32 c x = c - x := by
  rw [sub32]
  omega

def InWindow (offset c : Nat) : Prop := offset ≤ c ∧ c ≤ offset + 0x7f

theorem sub32_window_iff {c offset : Nat} (hc : c < 0x110000) (ho : offset < 0x110000) :
    sub32 c offset ≤ 0x7f ↔ InWindow offset c :=
  sub32_le_iff (by omega) (by omega) (by omega)

structure IsOffset (offset : Nat) : Prop where
  lt : offset < 0x110000
  noSurrogates : ∀ {c}, InWindow offset c → ¬ (0xd800 ≤ c ∧ c ≤ 0xdfff)

theorem isOffset_of_range {offset : Nat} (hlt : offset < 0x110000)
    (h : offset + 0x7f < 0xd800 ∨ 0xdfff < offset) : IsOffset offset := by
  refine ⟨hlt, fun {c} hc => ?_⟩
  rw [InWindow] at hc
  omega

structure Encoder.Valid (scsu : Encoder) : Prop where
  usesAll : scsu.UsesAll
  offsets : ∀ window, IsOffset (scsu.fromUDynamicOffsets.get window)

theorem Encoder.valid_initial (locale : Locale) : (Encoder.initial locale).Valid := by
  constructor
  · cases locale with
    | lGeneric => exact (by decide : Function.Bijective initialWindowUse.get)
    | lJa => exact (by decide : Function.Bijective initialWindowUseJa.get)
  intro window
  have hall : ∀ window, initialDynamicOffsets.get window < 0x110000 ∧
      (initialDynamicOffsets.get window + 0x7f < 0xd800 ∨
        0xdfff < initialDynamicOffsets.get window) := by
    decide
  exact isOffset_of_range (hall window).1 (hall window).2

theorem getWindow_some {offsets : Offsets} (ho : ∀ window, offsets.get window < 0x110000) {c : Nat}
    (hc : c < 0x110000) {window : Window} (h : getWindow offsets c = some window) :
    InWindow (offsets.get window) c := by
  have hin := List.find?_some h
  exact (sub32_window_iff hc (ho window)).mp (of_decide_eq_true hin)

structure Defines (code offset : Nat) : Prop where
  lt : code < 0x100
  allocated : isReserved code = false
  offset : definedOffset code = offset

theorem clear_low {c : Nat} (hc : c < 0x110000) : c &&& 0x7fffff80 = c / 0x80 * 0x80 :=
  @Bits.and_high c 7 31 _ (by omega) (by decide) (by decide)

theorem inWindow_clear_low (c : Nat) : InWindow (c / 0x80 * 0x80) c := by
  rw [InWindow]
  omega

theorem fixedOffsets_spec : ∀ i < 7, fixedOffsets.getD i 0 + 0x7f < 0xffff ∧
    (fixedOffsets.getD i 0 + 0x7f < 0xd800 ∨ 0xdfff < fixedOffsets.getD i 0) ∧
    isReserved (0xf9 + i) = false ∧ definedOffset (0xf9 + i) = fixedOffsets.getD i 0 := by
  decide

section DynamicOffset

variable {c code offset : Nat}

theorem getDynamicOffset_cases (hc : c < 0x110000) (h : getDynamicOffset c = some (code, offset)) :
    (∃ i < 7, InWindow offset c ∧ code = 0xf9 + i ∧ offset = fixedOffsets.getD i 0) ∨
      (offset = c / 0x80 * 0x80 ∧
        ((code = c / 0x80 ∧ 0x80 ≤ c ∧ (c < 0x3400 ∨ 0x10000 ≤ c)) ∨
          (code = (c - gapOffset) / 0x80 ∧ 0xe000 ≤ c ∧ c < 0xfff0))) := by
  unfold getDynamicOffset at h
  rw [clear_low hc, Nat.shiftRight_eq_div_pow, Nat.shiftRight_eq_div_pow] at h
  split at h
  · next i hfind =>
    have hlt : i < 7 := List.mem_range.mp (List.mem_of_find?_eq_some hfind)
    have hfixed := (fixedOffsets_spec i hlt).1
    have hin := List.find?_some hfind
    rw [decide_eq_true_iff, sub32_window_iff hc (by omega)] at hin
    rw [Option.some.injEq, Prod.mk.injEq] at h
    obtain ⟨rfl, rfl⟩ := h
    exact Or.inl ⟨i, hlt, hin, rfl, rfl⟩
  refine Or.inr ?_
  split at h
  · cases h
  split at h
  · next hsmall =>
    rw [Option.some.injEq, Prod.mk.injEq] at h
    rw [sub32_lt_iff (by omega) (by omega) (by omega),
      sub32_le_iff (by omega) (by omega) (by omega)] at hsmall
    exact ⟨h.2.symm, Or.inl ⟨h.1.symm, by omega, by omega⟩⟩
  split at h
  · next hgap =>
    rw [Option.some.injEq, Prod.mk.injEq] at h
    exact ⟨h.2.symm, Or.inr ⟨h.1.symm, hgap.1, hgap.2.2⟩⟩
  · cases h

theorem getDynamicOffset_isOffset (hc : c < 0x110000)
    (h : getDynamicOffset c = some (code, offset)) :
    IsOffset offset ∧ InWindow offset c := by
  rcases getDynamicOffset_cases hc h with ⟨i, hi, hin, -, rfl⟩ | ⟨rfl, hrange⟩
  · have hfixed := fixedOffsets_spec i hi
    exact ⟨isOffset_of_range (by omega) hfixed.2.1, hin⟩
  refine ⟨isOffset_of_range (by omega) ?_, inWindow_clear_low c⟩
  rcases hrange with ⟨-, -, hlt | hge⟩ | ⟨-, hge, -⟩
  · exact Or.inl (by omega)
  · exact Or.inr (by omega)
  · exact Or.inr (by omega)

theorem getDynamicOffset_defines (hc : c ≤ 0xffff) (h : getDynamicOffset c = some (code, offset)) :
    Defines code offset := by
  have hg : gapThreshold = 0x68 := rfl
  have hs : reservedStart = 0xa8 := rfl
  have ho : gapOffset = 0xac00 := rfl
  rcases getDynamicOffset_cases (by omega) h with ⟨i, hi, -, rfl, rfl⟩ | ⟨rfl, hrange⟩
  · obtain ⟨-, -, hallocated, hoffset⟩ := fixedOffsets_spec i hi
    exact ⟨by omega, hallocated, hoffset⟩
  have hallocated : ∀ {b}, 0 < b → b < 0xa8 → isReserved b = false := by
    intro b hpos hlt
    rw [isReserved, decide_eq_false (by omega), decide_eq_false (p := reservedStart ≤ b) (by omega)]
    rfl
  rcases hrange with ⟨rfl, hascii, hlt | hge⟩ | ⟨rfl, hge, hlt⟩
  · refine ⟨by omega, hallocated (by omega) (by omega), ?_⟩
    rw [definedOffset, if_pos (by omega), Nat.shiftLeft_eq]
  · omega
  · refine ⟨by omega, hallocated (by omega) (by omega), ?_⟩
    rw [definedOffset, if_neg (by omega), if_pos (by omega), Nat.shiftLeft_eq, gapOffset]
    omega

theorem getDynamicOffset_extended (h0 : 0x10000 ≤ c) (hc : c < 0x110000)
    (h : getDynamicOffset c = some (code, offset)) :
    code = c / 0x80 ∧ offset = c / 0x80 * 0x80 := by
  rcases getDynamicOffset_cases hc h with ⟨i, hi, hin, -, rfl⟩ | ⟨rfl, hrange⟩
  · have hfixed := (fixedOffsets_spec i hi).1
    rw [InWindow] at hin
    omega
  · rcases hrange with ⟨rfl, -, -⟩ | ⟨-, -, hlt⟩
    · exact ⟨rfl, rfl⟩
    · omega

end DynamicOffset

section Change

variable {scsu : Encoder}

theorem defineWindow_currentOffset (offset : Nat) :
    (scsu.defineWindow offset).fromUDynamicOffsets.get
      (scsu.defineWindow offset).fromUDynamicWindow =
      offset := by
  have hget : (scsu.defineWindow offset).fromUDynamicOffsets.get = Function.update
      scsu.fromUDynamicOffsets.get scsu.getNextDynamicWindow.1 offset := get_setAt _ _ _
  rw [hget]
  exact Function.update_self _ _ _

theorem Encoder.Valid.changeWindow (h : scsu.Valid) (window : Window) :
    (scsu.changeWindow window).Valid := by
  constructor
  · apply usesAll_useDynamicWindow
    exact h.usesAll
  · exact h.offsets

theorem Encoder.Valid.defineWindow (h : scsu.Valid) {offset : Nat} (ho : IsOffset offset) :
    (scsu.defineWindow offset).Valid := by
  constructor
  · apply usesAll_useDynamicWindow
    exact h.usesAll
  intro window
  have hget : (scsu.defineWindow offset).fromUDynamicOffsets.get = Function.update
      scsu.fromUDynamicOffsets.get scsu.getNextDynamicWindow.1 offset := get_setAt _ _ _
  rw [hget]
  by_cases hw : window = scsu.getNextDynamicWindow.1
  · rw [hw, Function.update_self]
    exact ho
  · rw [Function.update_of_ne hw]
    exact h.offsets window

end Change

end Icu.Scsu
