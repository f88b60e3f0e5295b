import Icu.Utf7.Grammar

/-! # The strictness of the UTF-7 decoder

The decoder only looks at the value of the bits that are left over at the end of a run. So it also
reads runs that end in zero bits of an incomplete unit, and a plus sign at the end of the text.
-/

namespace Icu.Utf7

open Lib

variable {b : UInt8} {s : DecoderState} {bs digits source : List UInt8} {k : Nat}
  {next now : ToLabel × ToLocals} {cnv : Decoder} {ok : Bool}

/-- The bytes are read without an error, and at their end no bit is left over. -/
def accepts : DecoderState → List UInt8 → Bool
  | .direct, [] => true
  | .unicode _ bits, [] => bits == 0
  | s, b :: bs =>
    match decodeByte s (some b) with
    | none => false
    | some r => accepts r.1 bs

theorem accepts_cons {r : DecoderState × List UInt16}
    (h : decodeByte s (some b) = some r) : accepts s (b :: bs) = accepts r.1 bs := by
  rw [accepts, h]

theorem accepts_cons_none (h : decodeByte s (some b) = none) : accepts s (b :: bs) = false := by
  rw [accepts, h]

theorem accepts_congr {s' : DecoderState} (bs : List UInt8)
    (h : decodeByte s (some b) = decodeByte s' (some b)) :
    accepts s (b :: bs) = accepts s' (b :: bs) := by
  rw [accepts, accepts, h]

def counterAfter (digits : List UInt8) : Int :=
  if digits = [] then -1 else (digits.length % 8 : Nat)

def stateAfter (digits : List UInt8) :
    DecoderState := .unicode (counterAfter digits) (padding digits)

theorem runValue_concat (digits : List UInt8) (b : UInt8) :
    runValue (digits ++ [b]) = 64 * runValue digits + (base64Value b).toNat := by
  rw [runValue, List.foldl_append, List.foldl_cons, List.foldl_nil, runValue]

theorem counterAfter_concat (digits : List UInt8) (b : UInt8) :
    counterAfter (digits ++ [b]) = ((digits.length + 1) % 8 : Nat) := by
  rw [counterAfter, if_neg (List.concat_ne_nil _ _), List.length_append, List.length_singleton]

/-- Before the first digit the counter is -1, and 0 at the start of each further group. -/
theorem counterAfter_cases (digits : List UInt8) : counterAfter digits = -1 ∧ digits.length = 0 ∨
      counterAfter digits = (digits.length % 8 : Nat) ∧ digits ≠ [] := by
  unfold counterAfter
  split
  · next h => exact Or.inl ⟨rfl, by rw [h, List.length_nil]⟩
  · next h => exact Or.inr ⟨rfl, h⟩

theorem counterAfter_eq_neg_one : counterAfter digits = -1 ↔ digits = [] := by
  unfold counterAfter
  split
  · next h => exact ⟨fun _ => h, fun _ => rfl⟩
  · next h => exact ⟨fun hc => by omega, fun hnil => absurd hnil h⟩

theorem padding_concat (h : (6 * digits.length + 6) % 16 = k) :
    padding (digits ++ [b]) = (64 * runValue digits + (base64Value b).toNat) % 2 ^ k := by
  rw [padding, paddingLength, runValue_concat, List.length_append, List.length_singleton,
    Nat.mul_add_one, h]

theorem padding_eq (h : 6 * digits.length % 16 = k) : padding digits = runValue digits % 2 ^ k := by
  rw [padding, paddingLength, h]

theorem decodeBase64_stateAfter (digits : List UInt8) (hb : IsBase64 b) :
    (decodeBase64 (counterAfter digits) (padding digits) (base64Value b).toNat).1 =
      stateAfter (digits ++ [b]) := by
  have hlt := ToLocals.base64Value_lt b
  have hv : (base64Value b).toNat < 2 ^ 6 := by
    unfold IsBase64 at hb
    omega
  have hlow : ∀ bits, bits <<< 6 ||| (base64Value b).toNat = bits * 2 ^ 6 + (base64Value b).toNat :=
    fun bits => @Bits.or_low bits _ 6 hv
  rw [stateAfter, counterAfter_concat]
  have hstep : ∀ {k : Nat}, (6 * digits.length + 6) % 16 = k →
      padding (digits ++ [b]) = (64 * runValue digits + (base64Value b).toNat) % 2 ^ k :=
    fun h => padding_concat h
  generalize (base64Value b).toNat = v at hv hlow hstep ⊢
  have hcases := counterAfter_cases digits
  unfold decodeBase64
  split
  · next hfirst =>
    -- the first digit of a group
    rw [hstep (by omega : _ = 6), (by omega : (digits.length + 1) % 8 = 1)]
    exact congrArg (DecoderState.unicode 1) (by omega)
  next hfirst =>
  obtain ⟨hcounter, -⟩ := hcases.resolve_left fun h => hfirst (Or.inl h.1)
  split
  · next hmiddle =>
    rw [hlow]
    have hlength : digits.length % 8 = 1 ∨ digits.length % 8 = 3 ∨ digits.length % 8 = 4 ∨
        digits.length % 8 = 6 := by omega
    have hnext : counterAfter digits + 1 = ((digits.length + 1) % 8 : Nat) := by omega
    rw [hnext]
    refine congrArg (DecoderState.unicode _) ?_
    rcases hlength with h | h | h | h
    · rw [hstep (by omega : _ = 12), padding_eq (by omega : _ = 6)]
      omega
    · rw [hstep (by omega : _ = 8), padding_eq (by omega : _ = 2)]
      omega
    · rw [hstep (by omega : _ = 14), padding_eq (by omega : _ = 8)]
      omega
    · rw [hstep (by omega : _ = 10), padding_eq (by omega : _ = 4)]
      omega
  next hmiddle =>
  split
  · next htwo =>
    rw [hstep (by omega : _ = 2), (by omega : (digits.length + 1) % 8 = 3), Bits.and_low v 2 3 rfl]
    exact congrArg (DecoderState.unicode 3) (by omega)
  next htwo =>
  split
  · next hfive =>
    rw [hstep (by omega : _ = 4), (by omega : (digits.length + 1) % 8 = 6), Bits.and_low v 4 15 rfl]
    exact congrArg (DecoderState.unicode 6) (by omega)
  · next hfive =>
    rw [hstep (by omega : _ = 0), (by omega : (digits.length + 1) % 8 = 0)]
    exact congrArg (DecoderState.unicode 0) (by omega)

theorem stateAfter_nil : stateAfter [] = .unicode (-1) 0 := rfl

theorem base64Value_cases (b : UInt8) : (base64Value b = -2 ↔ b.toNat = minus) ∧
    (base64Value b = -3 ↔ isLegalUTF7 b = false) ∧ -3 ≤ base64Value b := by
  have hrows : ∀ row ∈ fromBase64Table.zipIdx, row.2 < 126 → (row.1 = -2 ↔ row.2 = minus) ∧
      (row.1 = -3 ↔ isLegalUTF7 (UInt8.ofNat row.2) = false) ∧ -3 ≤ row.1 := by
    set_option maxRecDepth 1000 in decide
  have hhigh : ∀ c < 256, 126 ≤ c → isLegalUTF7 (UInt8.ofNat c) = false := by
    set_option maxRecDepth 1000 in decide
  have hlength : fromBase64Table.length = 128 := rfl
  unfold base64Value
  split
  · next hlarge =>
    have hillegal := hhigh b.toNat (UInt8.toNat_lt b) hlarge
    rw [UInt8.ofNat_toNat] at hillegal
    have hminus : minus < 126 := by decide
    exact ⟨iff_of_false (by decide) (by omega), iff_of_true rfl hillegal, Int.le_refl _⟩
  · next hsmall =>
    have hindex : b.toNat < fromBase64Table.length := by omega
    rw [fromBase64, List.getD_eq_getElem _ _ hindex]
    have hrow := hrows (_, b.toNat)
      (List.mem_zipIdx_iff_getElem?.mpr (List.getElem?_eq_getElem hindex)) (by omega)
    rwa [UInt8.ofNat_toNat] at hrow

theorem accepts_direct (hplus : b.toNat ≠ plus) (bs : List UInt8) :
    accepts .direct (b :: bs) = (isLegalUTF7 b && accepts .direct bs) := by
  have hbyte : decodeByte .direct (some b) =
      if !isLegalUTF7 b then none else some (.direct, [UInt16.ofNat b.toNat]) := by
    rw [decodeByte, decodeDirect, if_pos hplus]
  cases hlegal : isLegalUTF7 b with
  | false =>
    rw [hlegal] at hbyte
    rw [accepts_cons_none hbyte, Bool.false_and]
  | true =>
    rw [hlegal] at hbyte
    rw [accepts_cons hbyte, Bool.true_and]

theorem accepts_stateAfter_end (hb : ¬ IsBase64 b) (bs : List UInt8) :
    accepts (stateAfter digits) (b :: bs) =
      if b.toNat = minus then decide (digits = [] ∨ IsZeroPadded digits) && accepts .direct bs
      else isLegalUTF7 b && decide (IsZeroPadded digits) && accepts .direct bs := by
  obtain ⟨hminus, hillegal, hge⟩ := base64Value_cases b
  unfold IsBase64 at hb
  have hbyte : decodeByte (stateAfter digits) (some b) =
      decodeUnicode (counterAfter digits) (padding digits) b := rfl
  unfold decodeUnicode at hbyte
  by_cases hm : b.toNat = minus
  · have hvalue := hminus.mpr hm
    rw [if_pos hm]
    rw [hvalue, if_neg (by decide), if_neg (by decide)] at hbyte
    by_cases hnil : digits = []
    · rw [if_pos (counterAfter_eq_neg_one.mpr hnil)] at hbyte
      rw [accepts_cons hbyte, decide_eq_true (Or.inl hnil), Bool.true_and]
    rw [if_neg (mt counterAfter_eq_neg_one.mp hnil)] at hbyte
    by_cases hzero : padding digits = 0
    · rw [if_neg (not_not.mpr hzero)] at hbyte
      rw [accepts_cons hbyte, decide_eq_true (Or.inr ⟨hnil, hzero⟩), Bool.true_and]
    rw [if_pos hzero] at hbyte
    rw [accepts_cons_none hbyte, decide_eq_false, Bool.false_and]
    rintro (h | h)
    · exact hnil h
    · exact hzero h.2
  have hne := mt hminus.mp hm
  rw [if_neg hm]
  rw [if_pos (by omega)] at hbyte
  by_cases hlegal : isLegalUTF7 b = true
  swap
  · rw [Bool.not_eq_true] at hlegal
    rw [if_pos (Or.inr (Or.inr (hillegal.mpr hlegal)))] at hbyte
    rw [accepts_cons_none hbyte, hlegal, Bool.false_and, Bool.false_and]
  have hthree : base64Value b ≠ -3 := by
    intro h
    rw [hillegal.mp h] at hlegal
    cases hlegal
  rw [hlegal, Bool.true_and]
  by_cases hpadded : IsZeroPadded digits
  · rw [if_neg] at hbyte
    · have hsame : decodeByte (stateAfter digits) (some b) = decodeByte .direct (some b) := hbyte
      rw [accepts_congr bs hsame, accepts_direct (toNat_ne_plus hb), hlegal, decide_eq_true hpadded]
    rintro (h | h | h)
    · exact hpadded.1 (counterAfter_eq_neg_one.mp h)
    · exact h hpadded.2
    · exact hthree h
  · rw [if_pos] at hbyte
    · rw [accepts_cons_none hbyte, decide_eq_false hpadded, Bool.false_and]
    by_cases hnil : digits = []
    · exact Or.inl (counterAfter_eq_neg_one.mpr hnil)
    · exact Or.inr (Or.inl fun hzero => hpadded ⟨hnil, hzero⟩)

/-- The decoder reads the texts whose runs leave only zero bits over. -/
theorem accepts_recognizes (bs : List UInt8) :
    accepts .direct bs = recognizes IsZeroPadded (padding · = 0) none bs ∧
      ∀ digits, accepts (stateAfter digits) bs =
        recognizes IsZeroPadded (padding · = 0) (some digits) bs := by
  induction bs with
  | nil => exact ⟨rfl, fun digits => rfl⟩
  | cons b bs ih =>
    obtain ⟨ihdirect, ihrun⟩ := ih
    refine ⟨?_, fun digits => ?_⟩
    · rw [recognizes]
      split
      · next hplus =>
        rw [← ihrun [], stateAfter_nil, plus_toNat hplus, accepts_cons decodeByte_plus]
      · next hplus => rw [accepts_direct hplus, ihdirect]
    rw [recognizes]
    split
    · next hb =>
      have hbyte : decodeByte (stateAfter digits) (some b) =
          some (decodeBase64 (counterAfter digits) (padding digits) (base64Value b).toNat) := by
        unfold IsBase64 at hb
        rw [stateAfter, decodeByte, decodeUnicode, if_neg (by omega), if_pos hb]
      rw [accepts_cons hbyte, decodeBase64_stateAfter digits hb, ihrun]
    · next hb => rw [accepts_stateAfter_end hb, ihdirect]

theorem accepts_iff (bs : List UInt8) :
    accepts .direct bs = true ↔ Text IsZeroPadded (padding · = 0) bs := by
  rw [(accepts_recognizes bs).1, recognizes_iff]

/-! ## The jumps on any input -/

namespace ToLocals

def Waits (l : ToLocals) : Prop := l.bits ≠ 0 → l.bytes ≠ []

/-- What holds at each label, if `whole rest` says that the bytes before `rest` and `rest` are
accepted. -/
def WalksAt (whole : List UInt8 → Bool) (targetLimit : Nat) : ToLabel → ToLocals → Prop
  | .directMode, l => l.inDirectMode = true
  | .directLoop, l => l.inDirectMode = true ∧ l.bytes = [] ∧
      l.length = Min.min l.source.length (targetLimit - l.target.length)
  | .unicodeMode, l => l.inDirectMode = false ∧ l.Waits
  | .done, l => l.err = .illegalCharFound ∧ (∀ rest, whole rest = false) ∨
      (l.inDirectMode = true → l.bytes = []) ∧ (l.inDirectMode = false → l.Waits) ∧
        (l.err = .zeroError ∧ l.source = [] ∨
          l.err = .bufferOverflowError ∧ targetLimit ≤ l.target.length)

structure Walks (whole : List UInt8 → Bool) (targetLimit : Nat) (label : ToLabel) (l : ToLocals) :
    Prop where
  inRange : l.InRange
  err : label ≠ .done → l.err = .zeroError
  accepts : l.err ≠ .illegalCharFound → ∀ rest, whole rest = accepts l.mode (l.source ++ rest)
  atLabel : WalksAt whole targetLimit label l

section Jumps

variable {whole : List UInt8 → Bool} {targetLimit : Nat} {l : ToLocals}

theorem walks_illegal {l' : ToLocals}
    (haccepts : ∀ rest, whole rest = Utf7.accepts l.mode (l.source ++ rest))
    (hsource : l.source = b :: source) (hbyte : decodeByte l.mode (some b) = none)
    (hrange : l'.InRange) (herr : l'.err = .illegalCharFound) :
    Walks whole targetLimit .done l' := by
  refine ⟨hrange, fun hne => absurd rfl hne, fun hne => absurd herr hne,
    Or.inl ⟨herr, fun rest => ?_⟩⟩
  rw [haccepts rest, hsource, List.cons_append, accepts_cons_none hbyte]

theorem directMode_walks (h : Walks whole targetLimit .directMode l) :
    Walks whole targetLimit (l.directMode targetLimit).1 (l.directMode targetLimit).2 :=
  ⟨h.inRange, fun _ => h.err (by decide), h.accepts, h.atLabel, rfl, rfl⟩

theorem directEnd_walks (h : Walks whole targetLimit .directLoop l)
    (hend : l.source = [] ∨ targetLimit ≤ l.target.length) :
    Walks whole targetLimit (l.directEnd targetLimit).1 (l.directEnd targetLimit).2 := by
  obtain ⟨hmode, hbytes, -⟩ := h.atLabel
  have herr := h.err (by decide)
  have hdirect : l.inDirectMode = false → l.Waits := by
    intro hfalse
    rw [hmode] at hfalse
    cases hfalse
  have haccepts := h.accepts (by rw [herr]; decide)
  unfold directEnd
  split
  · next hfull =>
    exact ⟨h.inRange, fun hne => absurd rfl hne, fun _ => haccepts,
      Or.inr ⟨fun _ => hbytes, hdirect, Or.inr ⟨rfl, hfull.2⟩⟩⟩
  · next hnot =>
    refine ⟨h.inRange, fun hne => absurd rfl hne, fun _ => haccepts,
      Or.inr ⟨fun _ => hbytes, hdirect, Or.inl ⟨herr, ?_⟩⟩⟩
    rcases hend with hend | hend
    · exact hend
    by_contra hne
    exact hnot ⟨hne, hend⟩

theorem directLoop_walks (h : Walks whole targetLimit .directLoop l) :
    Walks whole targetLimit (l.directLoop targetLimit).1 (l.directLoop targetLimit).2 := by
  obtain ⟨hmode, hbytes, hcount⟩ := h.atLabel
  have herr := h.err (by decide)
  have haccepts := h.accepts (by rw [herr]; decide)
  unfold directLoop
  split
  · next length b source hlength hsource =>
    have hbyte : decodeByte l.mode (some b) = decodeDirect b := by
      rw [mode_of_direct hmode, decodeByte]
    unfold decodeDirect at hbyte
    split
    · next hillegal =>
      rw [if_pos hillegal] at hbyte
      -- the loop counter leaves room in the target
      have hroom : ¬ (source ≠ [] ∧ l.target.length ≥ targetLimit) := by omega
      rw [directEnd, if_neg hroom]
      exact walks_illegal haccepts hsource hbyte h.inRange rfl
    · next hlegal =>
      rw [if_neg hlegal] at hbyte
      split
      · next hplus =>
        rw [if_pos hplus] at hbyte
        refine ⟨h.inRange, fun _ => herr, fun _ rest => ?_, hmode, hbytes, ?_⟩
        · rw [haccepts rest, hsource, List.cons_append, accepts_cons hbyte]
          exact congrArg (Utf7.accepts · _) (mode_of_direct hmode).symm
        rw [hsource, List.length_cons] at hcount
        change length = Min.min source.length
          (targetLimit - (l.target ++ [UInt16.ofNat b.toNat]).length)
        rw [List.length_append, List.length_singleton]
        omega
      · next hplus =>
        rw [if_neg hplus] at hbyte
        refine ⟨⟨Int.le_refl _, (by decide : (-1 : Int) ≤ 7), (by decide : 0 < 0x10000)⟩,
          fun _ => herr, fun _ rest => ?_, rfl, fun hne => absurd rfl hne⟩
        rw [haccepts rest, hsource, List.cons_append, accepts_cons hbyte]
        rfl
  · next hstop =>
    refine directEnd_walks h ?_
    rcases Nat.eq_zero_or_pos l.length with hz | hpos
    · rcases Nat.eq_zero_or_pos l.source.length with hs | hs
      · exact Or.inl (List.length_eq_zero_iff.mp hs)
      · exact Or.inr (by omega)
    · cases hs : l.source with
      | nil => exact Or.inl rfl
      | cons b source => exact absurd hs (hstop (l.length - 1) b source (by omega))

theorem collect_waits {v : Nat} (h : l.bytes ≠ []) : (l.collect b v).Waits := by
  unfold collect Waits
  split
  · exact fun _ => h
  split
  · exact fun _ => h
  split
  · exact fun _ => List.cons_ne_nil _ _
  split
  · exact fun _ => List.cons_ne_nil _ _
  split
  · exact fun hne => absurd rfl hne
  · exact fun _ => h

theorem unicodeMode_walks (h : Walks whole targetLimit .unicodeMode l) :
    Walks whole targetLimit (l.unicodeMode targetLimit).1 (l.unicodeMode targetLimit).2 := by
  obtain ⟨hmode, hwaits⟩ := h.atLabel
  have herr := h.err (by decide)
  have haccepts := h.accepts (by rw [herr]; decide)
  have hnot : l.inDirectMode = true → l.bytes = [] := by
    intro htrue
    rw [hmode] at htrue
    cases htrue
  unfold unicodeMode
  split
  · next hsource =>
    exact ⟨h.inRange, fun hne => absurd rfl hne, fun _ => haccepts,
      Or.inr ⟨hnot, fun _ => hwaits, Or.inl ⟨herr, hsource⟩⟩⟩
  next b source hsource =>
  split
  swap
  · next hfull =>
    exact ⟨h.inRange, fun hne => absurd rfl hne, fun _ => haccepts,
      Or.inr ⟨hnot, fun _ => hwaits, Or.inr ⟨rfl, Nat.le_of_not_lt hfull⟩⟩⟩
  have hbyte : decodeByte l.mode (some b) = decodeUnicode l.base64Counter l.bits b := by
    rw [mode_of_unicode hmode, decodeByte]
  have hread : ∀ {r}, decodeByte l.mode (some b) = some r →
      ∀ rest, whole rest = Utf7.accepts r.1 (source ++ rest) := by
    intro r hr rest
    rw [haccepts rest, hsource, List.cons_append, accepts_cons hr]
  unfold decodeUnicode at hbyte
  dsimp only
  rw [← base64Value]
  split
  · next hout =>
    rw [if_pos hout] at hbyte
    unfold leaveUnicodeMode
    dsimp only
    split
    · next hcounter =>
      rw [if_pos (Or.inl hcounter)] at hbyte
      exact walks_illegal haccepts hsource hbyte h.inRange rfl
    next hcounter =>
    split
    · next hbits =>
      rw [if_pos (Or.inr (Or.inl hbits))] at hbyte
      exact walks_illegal haccepts hsource hbyte h.inRange rfl
    next hbits =>
    split
    · next hthree =>
      rw [if_pos (Or.inr (Or.inr hthree))] at hbyte
      exact walks_illegal haccepts hsource hbyte h.inRange rfl
    next hthree =>
    rw [if_neg (not_or.mpr ⟨hcounter, not_or.mpr ⟨hbits, hthree⟩⟩)] at hbyte
    -- the byte is read again in direct mode
    have hsame : decodeByte l.mode (some b) = decodeByte .direct (some b) := hbyte
    refine ⟨h.inRange, fun _ => herr, fun _ rest => ?_, rfl⟩
    rw [haccepts rest, hsource, List.cons_append, accepts_congr _ hsame]
    rfl
  next hout =>
  rw [if_neg hout] at hbyte
  split
  · next hdigit =>
    rw [if_pos hdigit] at hbyte
    have hlt := base64Value_lt b
    obtain ⟨-, hnext, hsource', hmode', herr', hrange⟩ :=
      @collect_mode { l with source, bytes := l.bytes ++ [b] } h.inRange b (base64Value b).toNat
        (by omega)
    refine ⟨hrange, fun _ => herr'.trans herr, fun _ rest => ?_, hmode'.trans hmode,
      collect_waits (List.concat_ne_nil _ _)⟩
    rw [mode_of_unicode (hmode'.trans hmode), hnext, hsource']
    exact hread hbyte rest
  next hdigit =>
  rw [if_neg hdigit] at hbyte
  unfold terminate
  dsimp only
  split
  · next hcounter =>
    rw [if_pos hcounter] at hbyte
    exact ⟨h.inRange, fun _ => herr, fun _ => hread hbyte, rfl⟩
  next hcounter =>
  rw [if_neg hcounter] at hbyte
  split
  · next hbits =>
    rw [if_pos hbits] at hbyte
    exact walks_illegal haccepts hsource hbyte h.inRange rfl
  · next hbits =>
    rw [if_neg hbits] at hbyte
    exact ⟨h.inRange, fun _ => herr, fun _ => hread hbyte, rfl⟩

theorem step_walks (hstep : step targetLimit now = some next)
    (h : Walks whole targetLimit now.1 now.2) : Walks whole targetLimit next.1 next.2 := by
  obtain ⟨label, l⟩ := now
  cases label with
  | directMode =>
    cases hstep
    exact directMode_walks h
  | directLoop =>
    cases hstep
    exact directLoop_walks h
  | unicodeMode =>
    cases hstep
    exact unicodeMode_walks h
  | done => cases hstep

end Jumps

end ToLocals

def Decoder.Waits (cnv : Decoder) : Prop :=
  cnv.toUnicodeStatus >>> 24 &&& 1 ≠ 1 → cnv.toUnicodeStatus % 0x10000 ≠ 0 → cnv.toUBytes ≠ []

theorem toUnicodeLocals_walks (hready : cnv.Ready) (hwaits : cnv.Waits)
    (source : List UInt8) (targetLimit : Nat) :
    ToLocals.Walks (fun rest => accepts cnv.state (source ++ rest)) targetLimit .done
      (toUnicodeLocals cnv source targetLimit) := by
  refine @toUnicodeLocals_invariant (fun now => ToLocals.Walks
    (fun rest => accepts cnv.state (source ++ rest)) targetLimit now.1 now.2)
    targetLimit (fun hs hi => ToLocals.step_walks hs hi) cnv source
    ⟨?_, fun _ => rfl, fun _ rest => ?_, ?_⟩
  · dsimp only [ToLocals.InRange]
    exact hready.inRange
  · rw [Decoder.state, ToLocals.mode]
  · cases hdirect : cnv.toUnicodeStatus >>> 24 &&& 1 == 1 with
    | true => rfl
    | false => exact ⟨rfl, hwaits (by simpa using hdirect)⟩

/-- What a call leaves in the converter, if it has not met an illegal byte. -/
theorem toDecoder_walks {whole : List UInt8 → Bool} {targetLimit : Nat} {l : ToLocals}
    (h : ToLocals.Walks whole targetLimit .done l) (hlegal : l.err ≠ .illegalCharFound)
    (flush : Bool) :
    (l.toDecoder flush).Ready ∧ (l.toDecoder flush).Waits ∧ (l.toDecoder flush).state = l.mode := by
  obtain ⟨hge, hle, hbits⟩ := h.inRange
  obtain ⟨hdirect, hwaits, -⟩ := h.atLabel.resolve_left fun hbad => hlegal hbad.1
  have hstatus : (l.toDecoder flush).toUnicodeStatus =
      toStatusOf l.inDirectMode l.base64Counter l.bits := rfl
  refine ⟨⟨l.inDirectMode, l.base64Counter, l.bits, hge, hle, hbits, rfl, fun hd => ?_⟩, ?_, ?_⟩
  · rw [ToLocals.toDecoder]
    split
    · rfl
    · exact hdirect hd
  · intro hunicode hne
    have hmode := @toStatusOf_inDirectMode l.inDirectMode l.base64Counter l.bits hbits
    rw [hstatus, toStatusOf_bits hbits] at hne
    rw [← hstatus, beq_eq_false_iff_ne.mpr hunicode] at hmode
    rw [ToLocals.toDecoder]
    rw [if_neg fun hall => hne hall.2.2.2]
    exact hwaits hmode.symm hne
  · rw [Decoder.state_of_status hge hle hbits rfl, ToLocals.mode]

/-- At the end of the text no byte is left to report if and only if the text is accepted. -/
theorem toUBytes_eq_nil_iff {whole : List UInt8 → Bool} {targetLimit : Nat} {l : ToLocals}
    (h : ToLocals.Walks whole targetLimit .done l) (herr : l.err = .zeroError) :
    (l.toDecoder true).toUBytes = [] ↔ whole [] = true := by
  have hlegal : l.err ≠ .illegalCharFound := by
    rw [herr]
    decide
  obtain ⟨hdirect, hwaits, hend⟩ := h.atLabel.resolve_left fun hbad => hlegal hbad.1
  obtain ⟨-, hsource⟩ := hend.resolve_right fun hfull => by
    rw [herr] at hfull
    cases hfull.1
  rw [h.accepts hlegal [], hsource, List.append_nil, ToLocals.toDecoder]
  cases hmode : l.inDirectMode with
  | true =>
    rw [ToLocals.mode_of_direct hmode, hdirect hmode, ite_self]
    exact ⟨fun _ => rfl, fun _ => rfl⟩
  | false =>
    rw [ToLocals.mode_of_unicode hmode, accepts, beq_iff_eq]
    by_cases hbits : l.bits = 0
    · rw [if_pos ⟨herr, rfl, hsource, hbits⟩]
      exact ⟨fun _ => hbits, fun _ => rfl⟩
    · rw [if_neg fun hall => hbits hall.2.2.2]
      exact ⟨fun hnil => absurd hnil (hwaits hmode hbits), fun hz => absurd hz hbits⟩

/-- The ends that the calls on a text can come to: `true` if all of it is read without an error.
Each call gets the next bytes and room for some units. The `flush` argument may only be set with the
last bytes, and then bytes that are left to report are a truncated character. -/
inductive Converts : Decoder → List UInt8 → Bool → Prop
  | illegal {cnv : Decoder} {bytes rest : List UInt8} {targetLimit : Nat}
      (herr : (toUnicodeLocals cnv bytes targetLimit).err = .illegalCharFound) :
      Converts cnv (bytes ++ rest) false
  | last {cnv : Decoder} {bytes : List UInt8} {targetLimit : Nat}
      (herr : (toUnicodeLocals cnv bytes targetLimit).err = .zeroError) :
      Converts cnv bytes
        (((toUnicodeLocals cnv bytes targetLimit).toDecoder true).toUBytes == [])
  | more {cnv : Decoder} {bytes rest : List UInt8} {flush : Bool} {targetLimit : Nat} {ok : Bool}
      (hflush : flush = true → rest = [])
      (hlegal : (toUnicodeLocals cnv bytes targetLimit).err ≠ .illegalCharFound)
      (hmore : flush = true → (toUnicodeLocals cnv bytes targetLimit).err ≠ .zeroError)
      (h : Converts ((toUnicodeLocals cnv bytes targetLimit).toDecoder flush)
        ((toUnicodeLocals cnv bytes targetLimit).source ++ rest) ok) :
      Converts cnv (bytes ++ rest) ok

/-- However the text is cut into calls, all of it is read if and only if it is accepted. -/
theorem Converts.eq_accepts (h : Converts cnv source ok) (hready : cnv.Ready) (hwaits : cnv.Waits) :
    ok = accepts cnv.state source := by
  induction h with
  | @illegal cnv bytes rest targetLimit herr =>
    have hwalks := toUnicodeLocals_walks hready hwaits bytes targetLimit
    obtain ⟨-, hfalse⟩ | ⟨-, -, ⟨hzero, -⟩ | ⟨hfull, -⟩⟩ := hwalks.atLabel
    · exact (hfalse rest).symm
    · rw [herr] at hzero
      cases hzero
    · rw [herr] at hfull
      cases hfull
  | @last cnv bytes targetLimit herr =>
    have hwalks := toUnicodeLocals_walks hready hwaits bytes targetLimit
    have hend := toUBytes_eq_nil_iff hwalks herr
    rw [List.append_nil] at hend
    rw [Bool.eq_iff_iff, beq_iff_eq]
    exact hend
  | @more cnv bytes rest flush targetLimit ok _ hlegal _ _ ih =>
    have hwalks := toUnicodeLocals_walks hready hwaits bytes targetLimit
    obtain ⟨hready', hwaits', hstate⟩ := toDecoder_walks hwalks hlegal flush
    rw [ih hready' hwaits', hstate, hwalks.accepts hlegal rest]

theorem Decoder.waits_initial : Decoder.initial.Waits := fun _ hne => absurd rfl hne

theorem converts_iff {bytes : List UInt8} (h : Converts .initial bytes ok) :
    ok = true ↔ Text IsZeroPadded (padding · = 0) bytes := by
  rw [h.eq_accepts Decoder.ready_initial Decoder.waits_initial]
  exact accepts_iff bytes

namespace ToLocals

def load (l : ToLocals) : Nat := l.target.length + l.source.length

theorem directEnd_load (targetLimit : Nat) (l : ToLocals) :
    (l.directEnd targetLimit).2.load = l.load := by
  unfold directEnd
  split
  · rfl
  · rfl

theorem put_load (l : ToLocals) (c : Nat) : (l.put c).load = l.load + 1 := by
  rw [put, load, load, List.length_append, List.length_singleton]
  dsimp only
  omega

theorem collect_load (l : ToLocals) (b : UInt8) (v : Nat) : (l.collect b v).load ≤ l.load + 1 := by
  unfold collect
  split
  · exact Nat.le_succ _
  split
  · exact Nat.le_succ _
  split
  · exact Nat.le_of_eq (put_load ..)
  split
  · exact Nat.le_of_eq (put_load ..)
  split
  · exact Nat.le_of_eq (put_load ..)
  · exact Nat.le_succ _

theorem step_load {targetLimit : Nat}
    (hstep : step targetLimit now = some next) : next.2.load ≤ now.2.load := by
  obtain ⟨label, l⟩ := now
  have hload : ∀ {b : UInt8} {source : List UInt8}, l.source = b :: source →
      l.target.length + source.length + 1 = l.load := by
    intro b source hsource
    rw [load, hsource, List.length_cons]
    omega
  cases label with
  | directMode =>
    cases hstep
    exact Nat.le_refl _
  | directLoop =>
    cases hstep
    unfold directLoop
    split
    · next length b source hlength hsource =>
      have hsize := hload hsource
      split
      · rw [directEnd_load]
        unfold load at *
        dsimp only
        omega
      split
      · exact Nat.le_of_eq ((put_load { l with source } _).trans hsize)
      unfold load at *
      dsimp only
      omega
    · exact Nat.le_of_eq (directEnd_load ..)
  | unicodeMode =>
    cases hstep
    unfold unicodeMode
    split
    · exact Nat.le_refl _
    next b source hsource =>
    have hsize := hload hsource
    split
    swap
    · exact Nat.le_refl _
    dsimp only
    rw [← base64Value]
    generalize base64Value b = v
    split
    · unfold leaveUnicodeMode
      dsimp only
      split
      · exact Nat.le_of_eq hsize
      split
      · exact Nat.le_of_eq hsize
      split
      · exact Nat.le_trans (Nat.le_succ _) (Nat.le_of_eq hsize)
      · exact Nat.le_of_eq hsize
    split
    · exact Nat.le_trans (collect_load ..) (Nat.le_of_eq hsize)
    unfold terminate
    dsimp only
    split
    · exact Nat.le_of_eq ((put_load { l with source, bytes := _, inDirectMode := true } _).trans
        hsize)
    split
    · exact Nat.le_trans (Nat.le_succ _) (Nat.le_of_eq hsize)
    · exact Nat.le_trans (Nat.le_succ _) (Nat.le_of_eq hsize)
  | done => cases hstep

end ToLocals

theorem converts_one_call (bytes : List UInt8) : ∃ ok, Converts .initial bytes ok := by
  have hwalks := toUnicodeLocals_walks Decoder.ready_initial Decoder.waits_initial bytes
    (bytes.length + 1)
  have hload := @toUnicodeLocals_invariant (fun now => now.2.load ≤ bytes.length) (bytes.length + 1)
    (fun hs hi => Nat.le_trans (ToLocals.step_load hs) hi) .initial bytes
    (Nat.le_of_eq (Nat.zero_add _))
  obtain ⟨hillegal, -⟩ | ⟨-, -, ⟨hzero, -⟩ | ⟨-, hfull⟩⟩ := hwalks.atLabel
  · have hend := @Converts.illegal _ _ [] _ hillegal
    rw [List.append_nil] at hend
    exact ⟨_, hend⟩
  · exact ⟨_, .last hzero⟩
  · unfold ToLocals.load at hload
    dsimp only at hload
    omega

/-- The decoder is as strict as the grammar, unless the text meets the grammar but for runs that end
in zero bits of an incomplete unit, or a plus sign at its end. -/
theorem strict_iff (bytes : List UInt8) :
    (∀ ok, Converts .initial bytes ok → (ok = true ↔ Text IsRun IsRun bytes)) ↔
      (Text IsZeroPadded (padding · = 0) bytes → Text IsRun IsRun bytes) := by
  constructor
  · intro h hloose
    obtain ⟨ok, hends⟩ := converts_one_call bytes
    exact (h ok hends).mp ((converts_iff hends).mpr hloose)
  intro h ok hends
  rw [converts_iff hends]
  exact ⟨h, fun hstrict =>
    hstrict.mono (fun _ hrun => hrun.zeroPadded) fun _ hrun => hrun.zero⟩

/-- Six zero bits and a minus sign behind the plus sign are read. -/
theorem strict_not_zero_digit : ¬ ∀ ok, Converts .initial [0x2b, 0x41, 0x2d] ok →
    (ok = true ↔ Text IsRun IsRun [0x2b, 0x41, 0x2d]) := by
  intro h
  have hends : Converts .initial [0x2b, 0x41, 0x2d] true :=
    @Converts.last .initial [0x2b, 0x41, 0x2d] 10 (by decide)
  have hstrict : ¬ Text IsRun IsRun [0x2b, 0x41, 0x2d] := by decide
  exact hstrict ((h true hends).mp rfl)

end Icu.Utf7
