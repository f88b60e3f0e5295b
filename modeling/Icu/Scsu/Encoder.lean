import Icu.Scsu.Windows
import Mathlib.Tactic.IntervalCases

/-! # The bytes of the SCSU encoder

The decoder reads each sequence of bytes that the encoder writes for a character: it writes the
units of the character, and it has the windows and the mode of the encoder afterwards.
-/

namespace Icu.Scsu

open Utf16 Lib Lib.Transducer

variable {code u : Nat}

/-- The decoder reads some bytes, none of them illegal or reserved. -/
inductive Decodes : Decoder → List UInt8 → List UInt16 → Decoder → Prop
  | nil (d : Decoder) : Decodes d [] [] d
  | cons {d d₁ d₂ : Decoder} {b : UInt8} {bs : List UInt8} {out out' : List UInt16}
      (hstep : decodeByte d b = some (d₁, out))
      (hallocated : d.toUState = .defineOne → isReserved b.toNat = false)
      (hrest : Decodes d₁ bs out' d₂) : Decodes d (b :: bs) (out ++ out') d₂

namespace Decodes

variable {d d₁ d₂ : Decoder} {b : UInt8} {bs bs' : List UInt8} {out out' : List UInt16}

theorem trans (h : Decodes d bs out d₁) (h' : Decodes d₁ bs' out' d₂) :
    Decodes d (bs ++ bs') (out ++ out') d₂ := by
  induction h with
  | nil d => exact h'
  | cons hstep hallocated _ ih =>
    rw [List.cons_append, List.append_assoc]
    exact cons hstep hallocated (ih h')

/-- A byte that is not the code of a window. -/
theorem read (hstep : decodeByte d b = some (d₁, out)) (hstate : (d.toUState == .defineOne) = false)
    (h : Decodes d₁ bs out' d₂) : Decodes d (b :: bs) (out ++ out') d₂ := by
  refine cons hstep (fun hdef => ?_) h
  rw [hdef] at hstate
  cases hstate

theorem silent (hstep : decodeByte d b = some (d₁, []))
    (hstate : (d.toUState == .defineOne) = false)
    (h : Decodes d₁ bs out d₂) : Decodes d (b :: bs) out d₂ :=
  read hstep hstate h

theorem one (hstep : decodeByte d b = some (d₁, out))
    (hstate : (d.toUState == .defineOne) = false) :
    Decodes d [b] out d₁ := by
  have h := read hstep hstate (nil d₁)
  rwa [List.append_nil] at h

theorem transduce_eq (h : Decodes d bs out d₁) :
    transduce decodeByte d bs = (out, some d₁, []) := by
  induction h with
  | nil d => rfl
  | cons hstep _ _ ih => rw [transduce_cons hstep, ih, after]

theorem readsReserved_eq (h : Decodes d bs out d₁) : readsReserved bs d = false := by
  induction h with
  | nil d => rfl
  | cons hstep hallocated _ ih =>
    rw [readsReserved, hstep, Bool.or_eq_false_iff, Bool.and_eq_false_imp]
    exact ⟨fun hdef => hallocated (eq_of_beq hdef), ih⟩

end Decodes

section Commands

variable {offsets : Offsets} {window quoteWindow n : Window} {b : Nat} {offset : Nat} {mode : Bool}

def single (offsets : Offsets) (window quoteWindow : Window) : Decoder :=
  ⟨offsets, true, .readCommand, quoteWindow, window, 0, []⟩

def unicode (offsets : Offsets) (window quoteWindow : Window) : Decoder :=
  ⟨offsets, false, .readCommand, quoteWindow, window, 0, []⟩

theorem toNat_ofNat_byte (h : b < 0x100) : (UInt8.ofNat b).toNat = b := UInt8.toNat_ofNat_of_lt' h

theorem windowOf_add (first : Nat) (n : Window) : windowOf (first + n) first = n := by
  rw [windowOf, Nat.add_sub_cancel_left]
  exact Fin.ofNat_val_eq_self n

theorem isDirectControl_tag : ∀ n : Window, isDirectControl (sc0 + n) = false ∧
    isDirectControl (sd0 + n) = false ∧ isDirectControl (sq0 + n) = false := by
  decide

theorem decodes_direct (h : 0x20 ≤ b ∧ b ≤ 0x7f ∨ b < 0x20 ∧ isDirectControl b = true) :
    Decodes (single offsets window quoteWindow) [UInt8.ofNat b] [UInt16.ofNat b]
      (single offsets window quoteWindow) := by
  have hb : (UInt8.ofNat b).toNat = b := toNat_ofNat_byte (by omega)
  refine .one ?_ rfl
  change decodeSingle _ _ = _
  unfold decodeSingle
  rw [hb]
  rcases h with ⟨hge, hle⟩ | ⟨hlt, hcontrol⟩
  · rw [if_pos hge, if_pos hle]
  · rw [if_neg (by omega), if_pos hcontrol]

theorem windowByte_spec {delta : Nat} (h : delta ≤ 0x7f) :
    (UInt8.ofNat (delta ||| 0x80)).toNat = 0x80 + delta ∧ (0x80 + delta) &&& 0x7f = delta := by
  have hor : delta ||| 0x80 = 0x80 + delta := by
    rw [Nat.or_comm, show 0x80 = 1 <<< 7 from rfl, Bits.or_low (by omega), Nat.shiftLeft_eq]
  refine ⟨?_, ?_⟩
  · rw [hor, toNat_ofNat_byte (by omega)]
  rw [Bits.and_low _ 7 _ (by decide)]
  omega

theorem decodes_window {delta : Nat} (h : delta ≤ 0x7f) :
    Decodes (single offsets window quoteWindow) [UInt8.ofNat (delta ||| 0x80)]
      (unitsOf (offsets.get window + delta)) (single offsets window quoteWindow) := by
  obtain ⟨hb, hlow⟩ := windowByte_spec h
  refine .one ?_ rfl
  change decodeSingle _ _ = _
  unfold decodeSingle
  rw [hb, if_pos (by omega), if_neg (by omega), hlow]
  rfl

theorem decodes_change (n : Window) :
    Decodes (single offsets window quoteWindow) [UInt8.ofNat (sc0 + n)] []
      (single offsets n quoteWindow) := by
  have hn := n.isLt
  have hb : (UInt8.ofNat (sc0 + n)).toNat = sc0 + n := toNat_ofNat_byte (by rw [sc0]; omega)
  refine .one ?_ rfl
  change decodeSingle _ _ = _
  unfold decodeSingle
  rw [hb, if_neg (by rw [sc0]; omega), (isDirectControl_tag n).1, if_neg Bool.false_ne_true,
    if_pos (Nat.le_add_right _ _), if_pos (by rw [sc0, sc7]; omega), windowOf_add]
  rfl

theorem decodeByte_quoteTag (n : Window) :
    decodeByte (single offsets window quoteWindow) (UInt8.ofNat (sq0 + n)) =
      some (⟨offsets, true, .quoteOne, n, window, 0, [UInt8.ofNat (sq0 + n)]⟩, []) := by
  have hn := n.isLt
  have htag : (UInt8.ofNat (sq0 + n)).toNat = sq0 + n := toNat_ofNat_byte (by rw [sq0]; omega)
  change decodeSingle _ _ = _
  unfold decodeSingle
  rw [htag, if_neg (by rw [sq0]; omega), (isDirectControl_tag n).2.2, if_neg Bool.false_ne_true,
    if_neg (by rw [sq0, sc0]; omega), if_pos (by rw [sq0, sq7]; omega), windowOf_add]
  rfl

theorem decodes_quoteStatic (n : Window) (h : b < 0x80) :
    Decodes (single offsets window quoteWindow) [UInt8.ofNat (sq0 + n), UInt8.ofNat b]
      [UInt16.ofNat (staticOffsets.get n + b)] (single offsets window n) := by
  have hb : (UInt8.ofNat b).toNat = b := toNat_ofNat_byte (by omega)
  refine .silent (decodeByte_quoteTag n) rfl (.one ?_ rfl)
  rw [decodeByte]
  rw [hb, if_pos h]
  rfl

theorem decodes_quoteDynamic (n : Window) {delta : Nat} (h : delta ≤ 0x7f) :
    Decodes (single offsets window quoteWindow)
    [UInt8.ofNat (sq0 + n), UInt8.ofNat (delta ||| 0x80)]
      (unitsOf (offsets.get n + delta)) (single offsets window n) := by
  obtain ⟨hb, hlow⟩ := windowByte_spec h
  refine .silent (decodeByte_quoteTag n) rfl (.one ?_ rfl)
  rw [decodeByte]
  dsimp only
  rw [hb, if_neg (by omega), hlow]
  rfl

theorem decodes_defineOne (h : Defines code offset) (bytes : List UInt8) :
    Decodes ⟨offsets, true, .defineOne, quoteWindow, n, 0, bytes⟩ [UInt8.ofNat code] []
      (single (setAt offsets n offset) n quoteWindow) := by
  have hcode : (UInt8.ofNat code).toNat = code := toNat_ofNat_byte h.lt
  refine @Decodes.cons _ _ _ _ _ [] [] ?_ (fun _ => ?_) (.nil _)
  · rw [decodeByte]
    rw [hcode, h.allocated, if_neg Bool.false_ne_true, h.offset]
    rfl
  · rw [hcode]
    exact h.allocated

theorem decodes_define (n : Window) (h : Defines code offset) :
    Decodes (single offsets window quoteWindow) [UInt8.ofNat (sd0 + n), UInt8.ofNat code] []
      (single (setAt offsets n offset) n quoteWindow) := by
  have hn := n.isLt
  have htag : (UInt8.ofNat (sd0 + n)).toNat = sd0 + n := toNat_ofNat_byte (by rw [sd0]; omega)
  have hfirst : decodeByte (single offsets window quoteWindow) (UInt8.ofNat (sd0 + n)) =
      some (⟨offsets, true, .defineOne, quoteWindow, n, 0, [UInt8.ofNat (sd0 + n)]⟩, []) := by
    change decodeSingle _ _ = _
    unfold decodeSingle
    rw [htag, if_neg (by rw [sd0]; omega), (isDirectControl_tag n).2.1, if_neg Bool.false_ne_true,
      if_pos (by rw [sd0, sc0]; omega), if_neg (by rw [sd0, sc7]; omega), windowOf_add]
    rfl
  exact .silent hfirst rfl (decodes_defineOne h _)

theorem decodes_definePair (hcode : code < 0x2000) (n : Window) (bytes : List UInt8) :
    Decodes ⟨offsets, true, .definePairOne, quoteWindow, window, 0, bytes⟩
      [UInt8.ofNat (n * 0x20 + code / 0x100), UInt8.ofNat code] []
      (single (setAt offsets n (0x10000 + code * 0x80)) n quoteWindow) := by
  have hn := n.isLt
  have hfirst : (UInt8.ofNat (n * 0x20 + code / 0x100)).toNat = n * 0x20 + code / 0x100 :=
    toNat_ofNat_byte (by omega)
  have hsecond : (UInt8.ofNat code).toNat = code % 0x100 := UInt8.toNat_ofNat'
  have hwindow : Fin.ofNat 8 ((n * 0x20 + code / 0x100) >>> 5 &&& 7) = n := by
    apply Fin.ext
    rw [Nat.shiftRight_eq_div_pow, Bits.and_low _ 3 _ (by decide), Fin.val_ofNat]
    omega
  have hbyte : (n * 0x20 + code / 0x100) &&& 0x1f = code / 0x100 := by
    rw [Bits.and_low _ 5 _ (by decide)]
    omega
  have hoffset : (code / 0x100) <<< 15 ||| (code % 0x100) <<< 7 = code * 0x80 := by
    have hlt : (code % 0x100) <<< 7 < 2 ^ 15 := by
      rw [Nat.shiftLeft_eq]
      omega
    rw [Bits.or_low hlt, Nat.shiftLeft_eq]
    omega
  have hone : decodeByte ⟨offsets, true, .definePairOne, quoteWindow, window, 0, bytes⟩
      (UInt8.ofNat (n * 0x20 + code / 0x100)) =
        some (⟨offsets, true, .definePairTwo, quoteWindow, n,
        code / 0x100, bytes.take 1 ++ [UInt8.ofNat (n * 0x20 + code / 0x100)]⟩, []) := by
    rw [decodeByte]
    rw [hfirst, hwindow, hbyte]
    rfl
  refine .silent hone rfl (.one ?_ rfl)
  rw [decodeByte]
  rw [hsecond, hoffset]
  rfl

theorem decodes_defineExtended (hcode : code < 0x2000) (n : Window) :
    Decodes (single offsets window quoteWindow)
      [UInt8.ofNat sdx, UInt8.ofNat (n * 0x20 + code / 0x100), UInt8.ofNat code] []
      (single (setAt offsets n (0x10000 + code * 0x80)) n quoteWindow) :=
  .silent rfl rfl (decodes_definePair hcode n _)

theorem decodeByte_quotePairTwo (bytes : List UInt8) :
    decodeByte ⟨offsets, mode, .quotePairTwo, quoteWindow, window, u / 0x100, bytes⟩
      (UInt8.ofNat u) =
      some (⟨offsets, mode, .readCommand, quoteWindow, window, 0, []⟩, [UInt16.ofNat u]) := by
  have hb : (UInt8.ofNat u).toNat = u % 0x100 := UInt8.toNat_ofNat'
  have hunit : (u / 0x100) <<< 8 ||| u % 0x100 = u := by
    rw [Bits.or_low (by omega)]
    omega
  rw [decodeByte]
  rw [hb, hunit]
  rfl

theorem decodes_quotePair (hu : u < 0x10000) (bytes : List UInt8) :
    Decodes ⟨offsets, mode, .quotePairOne, quoteWindow, window, 0, bytes⟩
      [UInt8.ofNat (u / 0x100), UInt8.ofNat u] [UInt16.ofNat u]
      ⟨offsets, mode, .readCommand, quoteWindow, window, 0, []⟩ := by
  have hb : (UInt8.ofNat (u / 0x100)).toNat = u / 0x100 := toNat_ofNat_byte (by omega)
  have hone : decodeByte ⟨offsets, mode, .quotePairOne, quoteWindow, window, 0, bytes⟩
      (UInt8.ofNat (u / 0x100)) = some (⟨offsets, mode, .quotePairTwo, quoteWindow, window,
        u / 0x100,
        bytes.take 1 ++ [UInt8.ofNat (u / 0x100)]⟩, []) := by
    rw [decodeByte]
    rw [hb]
    rfl
  exact .silent hone rfl (.one (decodeByte_quotePairTwo _) rfl)

theorem decodes_quoteUnit {u : Nat} (hu : u < 0x10000) : Decodes (single offsets window quoteWindow)
      [UInt8.ofNat squ, UInt8.ofNat (u / 0x100), UInt8.ofNat u] [UInt16.ofNat u]
      (single offsets window quoteWindow) :=
  .silent rfl rfl (decodes_quotePair hu _)

theorem decodes_toUnicode :
    Decodes (single offsets window quoteWindow) [UInt8.ofNat scu]
    [] (unicode offsets window quoteWindow) :=
  .one rfl rfl

theorem isUnicodeLead_iff (b : UInt8) :
    ToLocals.isUnicodeLead b = true ↔ b.toNat < 0xe0 ∨ 0xf2 < b.toNat := by
  have hb := b.toNat_lt
  rw [ToLocals.isUnicodeLead, decide_eq_true_iff, gt_iff_lt, UInt8.lt_iff_toNat_lt, UInt8.toNat_sub]
  have h1 : (UInt8.ofNat (urs - uc0)).toNat = 0x12 := rfl
  have h2 : (UInt8.ofNat uc0).toNat = 0xe0 := rfl
  rw [h1, h2]
  omega

/-- A unit whose first byte is not a tag. -/
theorem decodes_unit {u : Nat} (hu : u < 0xe000 ∨ 0xf300 ≤ u) (hlt : u < 0x10000) :
    Decodes (unicode offsets window quoteWindow) [UInt8.ofNat (u / 0x100), UInt8.ofNat u]
    [UInt16.ofNat u]
      (unicode offsets window quoteWindow) := by
  have hb : (UInt8.ofNat (u / 0x100)).toNat = u / 0x100 := toNat_ofNat_byte (by omega)
  have hlead : ToLocals.isUnicodeLead (UInt8.ofNat (u / 0x100)) = true :=
    (isUnicodeLead_iff _).mpr (by rw [hb]; omega)
  have hone : decodeByte (unicode offsets window quoteWindow) (UInt8.ofNat (u / 0x100)) =
      some (⟨offsets, false, .quotePairTwo, quoteWindow, window, u / 0x100,
        [UInt8.ofNat (u / 0x100)]⟩,
        []) := by
    change decodeUnicode _ _ = _
    unfold decodeUnicode
    rw [if_pos hlead, hb]
    rfl
  exact .silent hone rfl (.one (decodeByte_quotePairTwo _) rfl)

theorem decodes_unicodeQuote {u : Nat} (hu : u < 0x10000) :
    Decodes (unicode offsets window quoteWindow)
      [UInt8.ofNat uqu, UInt8.ofNat (u / 0x100), UInt8.ofNat u] [UInt16.ofNat u]
      (unicode offsets window quoteWindow) :=
  .silent rfl rfl (decodes_quotePair hu _)

theorem decodes_unicodeChange (n : Window) :
    Decodes (unicode offsets window quoteWindow) [UInt8.ofNat (uc0 + n)] []
      (single offsets n quoteWindow) := by
  have hn := n.isLt
  have hb : (UInt8.ofNat (uc0 + n)).toNat = uc0 + n := toNat_ofNat_byte (by rw [uc0]; omega)
  have hlead : ¬ ToLocals.isUnicodeLead (UInt8.ofNat (uc0 + n)) = true := by
    rw [isUnicodeLead_iff, hb, uc0]
    omega
  refine .one ?_ rfl
  change decodeUnicode _ _ = _
  unfold decodeUnicode
  rw [if_neg hlead, hb, if_pos (by rw [uc0, uc7]; omega), windowOf_add]
  rfl

theorem decodes_unicodeDefine (n : Window) (h : Defines code offset) :
    Decodes (unicode offsets window quoteWindow) [UInt8.ofNat (ud0 + n), UInt8.ofNat code] []
      (single (setAt offsets n offset) n quoteWindow) := by
  have hn := n.isLt
  have hb : (UInt8.ofNat (ud0 + n)).toNat = ud0 + n := toNat_ofNat_byte (by rw [ud0]; omega)
  have hlead : ¬ ToLocals.isUnicodeLead (UInt8.ofNat (ud0 + n)) = true := by
    rw [isUnicodeLead_iff, hb, ud0]
    omega
  have hone : decodeByte (unicode offsets window quoteWindow) (UInt8.ofNat (ud0 + n)) =
      some (⟨offsets, true, .defineOne, quoteWindow, n, 0, [UInt8.ofNat (ud0 + n)]⟩, []) := by
    change decodeUnicode _ _ = _
    unfold decodeUnicode
    rw [if_neg hlead, hb, if_neg (by rw [ud0, uc7]; omega), if_pos (by rw [ud0, ud7]; omega),
      windowOf_add]
    rfl
  exact .silent hone rfl (decodes_defineOne h _)

theorem decodes_unicodeDefineExtended (hcode : code < 0x2000) (n : Window) :
    Decodes (unicode offsets window quoteWindow)
      [UInt8.ofNat udx, UInt8.ofNat (n * 0x20 + code / 0x100), UInt8.ofNat code] []
      (single (setAt offsets n (0x10000 + code * 0x80)) n quoteWindow) :=
  .silent rfl rfl (decodes_definePair hcode n _)

end Commands

section Packed

variable {length c a b : Nat} {tag : Nat}

theorem ofNat_byte_congr (h : a % 0x100 = b % 0x100) : UInt8.ofNat a = UInt8.ofNat b := by
  apply UInt8.toNat_inj.mp
  rw [UInt8.toNat_ofNat', UInt8.toNat_ofNat']
  exact h

theorem packedBytes_two (hb : b < 0x100) :
    packedBytes 2 (a <<< 8 ||| b) = [UInt8.ofNat a, UInt8.ofNat b] := by
  rw [Bits.or_low hb, packedBytes, Nat.shiftRight_eq_div_pow]
  congr 1
  · exact ofNat_byte_congr (by omega)
  congr 1
  exact ofNat_byte_congr (by omega)

theorem packedBytes_three (hcode : code < 0x100) (hb : b < 0x100) :
    packedBytes 3 (a <<< 16 ||| code <<< 8 ||| b) =
    [UInt8.ofNat a, UInt8.ofNat code, UInt8.ofNat b] := by
  have hor : a <<< 16 ||| code <<< 8 ||| b = a * 0x10000 + (code * 0x100 + b) := by
    rw [Nat.or_assoc, @Bits.or_low code b 8 hb, Bits.or_low (by omega)]
    rfl
  rw [hor, packedBytes, Nat.shiftRight_eq_div_pow, Nat.shiftRight_eq_div_pow]
  congr 1
  · exact ofNat_byte_congr (by omega)
  congr 1
  · exact ofNat_byte_congr (by omega)
  congr 1
  exact ofNat_byte_congr (by omega)

theorem packedBytes_unit (u : Nat) :
    packedBytes 2 u = [UInt8.ofNat (u / 0x100), UInt8.ofNat u] := by
  rw [packedBytes, Nat.shiftRight_eq_div_pow]

theorem packedBytes_tag (hu : u < 0x10000) :
    packedBytes 3 (u ||| tag <<< 16) =
    [UInt8.ofNat tag, UInt8.ofNat (u / 0x100), UInt8.ofNat u] := by
  rw [Nat.or_comm, Bits.or_low hu, packedBytes, Nat.shiftRight_eq_div_pow,
    Nat.shiftRight_eq_div_pow]
  congr 1
  · exact ofNat_byte_congr (by omega)
  congr 1
  · exact ofNat_byte_congr (by omega)
  congr 1
  exact ofNat_byte_congr (by omega)

theorem packedBytes_pair {lead trail : Nat} (ht : trail < 0x10000) :
    packedBytes 4 (lead <<< 16 ||| trail) = [UInt8.ofNat (lead / 0x100), UInt8.ofNat lead,
      UInt8.ofNat (trail / 0x100), UInt8.ofNat trail] := by
  rw [Bits.or_low ht, packedBytes, Nat.shiftRight_eq_div_pow, Nat.shiftRight_eq_div_pow,
    Nat.shiftRight_eq_div_pow]
  congr 1
  · exact ofNat_byte_congr (by omega)
  congr 1
  · exact ofNat_byte_congr (by omega)
  congr 1
  · exact ofNat_byte_congr (by omega)
  congr 1
  exact ofNat_byte_congr (by omega)

theorem packedBytes_extended {n : Nat} (hn : n < 8) (hcode : code < 0x2000) (hb : b < 0x100) :
    packedBytes 4 (tag <<< 24 ||| n <<< 21 ||| code <<< 8 ||| b) =
      [UInt8.ofNat tag, UInt8.ofNat (n * 0x20 + code / 0x100), UInt8.ofNat code,
      UInt8.ofNat b] := by
  have hor : tag <<< 24 ||| n <<< 21 ||| code <<< 8 ||| b =
      tag * 0x1000000 + (n * 0x200000 + (code * 0x100 + b)) := by
    rw [Nat.or_assoc, Nat.or_assoc, @Bits.or_low code b 8 hb, @Bits.or_low n _ 21 (by omega),
      Bits.or_low (by omega)]
    rfl
  rw [hor, packedBytes, Nat.shiftRight_eq_div_pow, Nat.shiftRight_eq_div_pow,
    Nat.shiftRight_eq_div_pow]
  congr 1
  · exact ofNat_byte_congr (by omega)
  congr 1
  · exact ofNat_byte_congr (by omega)
  congr 1
  · exact ofNat_byte_congr (by omega)
  congr 1
  exact ofNat_byte_congr (by omega)

theorem length_packedBytes (h : length ≤ 4) : (packedBytes length c).length = length := by
  match length, h with
  | 0, _ => rfl
  | 1, _ => rfl
  | 2, _ => rfl
  | 3, _ => rfl
  | 4, _ => rfl

theorem packedBytes_split {capacity : Nat} (h : capacity < length) (hl : length ≤ 4) :
    packedBytes capacity (c >>> (8 * (length - capacity))) ++ packedBytes (length - capacity) c =
      packedBytes length c := by
  have hcapacity : capacity < 4 := by omega
  interval_cases capacity <;> interval_cases length <;>
    simp [packedBytes, ← Nat.shiftRight_add] at h ⊢

end Packed

end Icu.Scsu
