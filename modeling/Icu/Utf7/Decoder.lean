import Icu.Utf7.Encoder

/-! # The UTF-7 decoder

The decoder as a transducer of bytes, and its calls on legal input: between two calls the state is
the one of the transducer, and no byte waits in direct mode.
-/

namespace Icu.Utf7

open Lib Lib.Transducer

variable {b : UInt8} {now next : ToLabel × ToLocals} {cnv : Decoder} {source : List (Option UInt8)}

inductive DecoderState
  | direct
  | unicode (base64Counter : Int) (bits : Nat)
  deriving DecidableEq

def base64Value (b : UInt8) : Int := if b.toNat ≥ 126 then -3 else fromBase64 b.toNat

def decodeDirect (b : UInt8) : Option (DecoderState × List UInt16) :=
  if !isLegalUTF7 b then none
  else if b.toNat ≠ plus then some (.direct, [UInt16.ofNat b.toNat])
  else some (.unicode (-1) 0, [])

/-- The unit that a byte in base64 completes, and the counter and the bits behind it. -/
def decodeBase64 (base64Counter : Int) (bits v : Nat) : DecoderState × List UInt16 :=
  if base64Counter = -1 ∨ base64Counter = 0 then (.unicode 1 v, [])
  else if base64Counter = 1 ∨ base64Counter = 3 ∨ base64Counter = 4 ∨ base64Counter = 6 then
    (.unicode (base64Counter + 1) ((bits <<< 6 ||| v) % 0x10000), [])
  else if base64Counter = 2 then (.unicode 3 (v &&& 3), [UInt16.ofNat (bits <<< 4 ||| v >>> 2)])
  else if base64Counter = 5 then (.unicode 6 (v &&& 15), [UInt16.ofNat (bits <<< 2 ||| v >>> 4)])
  else (.unicode 0 0, [UInt16.ofNat (bits <<< 6 ||| v)])

def decodeUnicode (base64Counter : Int) (bits : Nat) (b : UInt8) :
    Option (DecoderState × List UInt16) :=
  if base64Value b = -3 ∨ base64Value b = -1 then
    if base64Counter = -1 ∨ bits ≠ 0 ∨ base64Value b = -3 then none else decodeDirect b
  else if base64Value b ≥ 0 then some (decodeBase64 base64Counter bits (base64Value b).toNat)
  else if base64Counter = -1 then some (.direct, [UInt16.ofNat plus])
  else if bits ≠ 0 then none
  else some (.direct, [])

/-- A byte, or the end of the text. -/
def decodeByte (s : DecoderState) (b : Option UInt8) : Option (DecoderState × List UInt16) :=
  match s, b with
  | s, none => some (s, [])
  | .direct, some b => decodeDirect b
  | .unicode base64Counter bits, some b => decodeUnicode base64Counter bits b

theorem decodeByte_plus :
    decodeByte .direct (some (UInt8.ofNat plus)) = some (.unicode (-1) 0, []) := by
  decide

theorem decodeBase64_length_le (base64Counter : Int) (bits v : Nat) :
    (decodeBase64 base64Counter bits v).2.length ≤ 1 := by
  unfold decodeBase64
  split
  · exact Nat.zero_le 1
  split
  · exact Nat.zero_le 1
  split
  · exact Nat.le_refl 1
  split
  · exact Nat.le_refl 1
  · exact Nat.le_refl 1

variable {r : DecoderState × List UInt16}

theorem decodeDirect_length_le (h : decodeDirect b = some r) : r.2.length ≤ 1 := by
  unfold decodeDirect at h
  split at h
  · cases h
  split at h
  · cases h
    exact Nat.le_refl 1
  · cases h
    exact Nat.zero_le 1

theorem decodeUnicode_length_le {base64Counter : Int} {bits : Nat}
    (h : decodeUnicode base64Counter bits b = some r) : r.2.length ≤ 1 := by
  unfold decodeUnicode at h
  split at h
  · split at h
    · cases h
    · exact decodeDirect_length_le h
  split at h
  · cases h
    exact decodeBase64_length_le _ _ _
  split at h
  · cases h
    exact Nat.le_refl 1
  split at h
  · cases h
  cases h
  exact Nat.zero_le 1

theorem decodeByte_length_le {s : DecoderState} {b : Option UInt8} {r : DecoderState × List UInt16}
    (h : decodeByte s b = some r) : r.2.length ≤ 1 := by
  cases b with
  | none =>
    unfold decodeByte at h
    cases h
    exact Nat.zero_le 1
  | some b =>
    cases s with
    | direct => exact decodeDirect_length_le h
    | unicode k bits => exact decodeUnicode_length_le h

/-! ## The locals -/

namespace ToLocals

def mode (l : ToLocals) : DecoderState :=
  if l.inDirectMode then .direct else .unicode l.base64Counter l.bits

def InRange (l : ToLocals) : Prop := -1 ≤ l.base64Counter ∧ l.base64Counter ≤ 7 ∧ l.bits < 0x10000

def AtLabel (targetLimit : Nat) : ToLabel → ToLocals → Prop
  | .directMode, l => l.inDirectMode = true
  | .directLoop, l => l.inDirectMode = true ∧ l.bytes = [] ∧
      l.length = Min.min l.source.length (targetLimit - l.target.length)
  | .unicodeMode, l => l.inDirectMode = false
  | .done, l => (l.inDirectMode = true → l.bytes = []) ∧
      (l.source = [] ∧ l.err = .zeroError ∨ targetLimit ≤ l.target.length ∧ l.source ≠ [] ∧
        l.err = .bufferOverflowError)

structure Mirrors
    (whole : List (Option UInt8) → List UInt16 × Option DecoderState × List (Option UInt8))
    (targetLimit : Nat) (label : ToLabel) (l : ToLocals) : Prop where
  follows : Follows decodeByte whole l.target l.mode (l.source.map some)
  inRange : l.InRange
  err : label ≠ .done → l.err = .zeroError
  atLabel : AtLabel targetLimit label l

section Steps

variable {targetLimit : Nat} {l : ToLocals}
  {whole : List (Option UInt8) → List UInt16 × Option DecoderState × List (Option UInt8)}

theorem mode_of_direct (h : l.inDirectMode = true) : l.mode = .direct := by
  rw [mode, h, if_pos rfl]

theorem mode_of_unicode (h : l.inDirectMode = false) :
    l.mode = .unicode l.base64Counter l.bits := by
  rw [mode, h, if_neg Bool.false_ne_true]

theorem legal_step {label : ToLabel} {source : List UInt8} (hlegal : (whole []).2.1 ≠ none)
    (h : Mirrors whole targetLimit label l) (hsource : l.source = b :: source) :
    ∃ r, decodeByte l.mode (some b) = some r ∧
      Follows decodeByte whole (l.target ++ r.2) r.1 (source.map some) := by
  have hfollows := h.follows
  rw [hsource, List.map_cons] at hfollows
  cases hunit : decodeByte l.mode (some b) with
  | some r => exact ⟨r, rfl, hfollows.cons hunit⟩
  | none =>
    have hwhole := hfollows []
    rw [List.cons_append, transduce_cons_none hunit] at hwhole
    rw [hwhole] at hlegal
    exact absurd rfl hlegal

theorem directMode_mirrors (h : Mirrors whole targetLimit .directMode l) :
    Mirrors whole targetLimit (l.directMode targetLimit).1 (l.directMode targetLimit).2 :=
  ⟨h.follows, h.inRange, fun _ => h.err (by decide), h.atLabel, rfl, rfl⟩

theorem directEnd_mirrors (h : Mirrors whole targetLimit .directLoop l)
    (hend : l.source = [] ∨ targetLimit ≤ l.target.length) :
    Mirrors whole targetLimit (l.directEnd targetLimit).1 (l.directEnd targetLimit).2 := by
  obtain ⟨-, hbytes, -⟩ := h.atLabel
  unfold directEnd
  split
  · next hfull =>
    exact ⟨h.follows, h.inRange, fun hne => absurd rfl hne, fun _ => hbytes,
      Or.inr ⟨hfull.2, hfull.1, rfl⟩⟩
  · next hnot =>
    refine ⟨h.follows, h.inRange, fun hne => absurd rfl hne, fun _ => hbytes,
      Or.inl ⟨?_, h.err (by decide)⟩⟩
    rcases hend with hend | hend
    · exact hend
    by_contra hne
    exact hnot ⟨hne, hend⟩

theorem directLoop_mirrors (hlegal : (whole []).2.1 ≠ none)
    (h : Mirrors whole targetLimit .directLoop l) :
    Mirrors whole targetLimit (l.directLoop targetLimit).1 (l.directLoop targetLimit).2 := by
  obtain ⟨hmode, hbytes, hcount⟩ := h.atLabel
  have herr := h.err (by decide)
  unfold directLoop
  split
  · next length b source hlength hsource =>
    obtain ⟨r, hunit, hfollows⟩ := legal_step hlegal h hsource
    rw [mode_of_direct hmode] at hunit
    have hbyte : decodeDirect b = some r := hunit
    unfold decodeDirect at hbyte
    by_cases hbad : (!isLegalUTF7 b) = true
    · rw [if_pos hbad] at hbyte
      cases hbyte
    rw [if_neg hbad] at hbyte ⊢
    by_cases hplus : b.toNat ≠ plus
    · rw [if_pos hplus, Option.some.injEq] at hbyte
      rw [if_pos hplus]
      rw [← hbyte] at hfollows
      rw [← mode_of_direct hmode] at hfollows
      refine ⟨hfollows, h.inRange, fun _ => herr, hmode, hbytes, ?_⟩
      · rw [hsource, List.length_cons] at hcount
        change length = Min.min source.length
          (targetLimit - (l.target ++ [UInt16.ofNat b.toNat]).length)
        rw [List.length_append, List.length_singleton]
        omega
    · rw [if_neg hplus, Option.some.injEq] at hbyte
      rw [if_neg hplus]
      rw [← hbyte, List.append_nil] at hfollows
      exact ⟨hfollows, ⟨Int.le_refl _, (by decide : (-1 : Int) ≤ 7), (by decide : 0 < 0x10000)⟩,
        fun _ => herr, rfl⟩
  · next hstop =>
    refine directEnd_mirrors h ?_
    rcases Nat.eq_zero_or_pos l.length with hz | hpos
    · rcases Nat.eq_zero_or_pos l.source.length with hs | hs
      · exact Or.inl (List.length_eq_zero_iff.mp hs)
      · exact Or.inr (by omega)
    · cases hs : l.source with
      | nil => exact Or.inl rfl
      | cons b source => exact absurd hs (hstop (l.length - 1) b source (by omega))

theorem fromBase64_lt (c : Nat) : fromBase64 c < 64 := by
  have htable : ∀ value ∈ fromBase64Table, value < 64 := by set_option maxRecDepth 1000 in decide
  rw [fromBase64, List.getD_eq_getElem?_getD]
  cases hvalue : fromBase64Table[c]? with
  | none => decide
  | some value => exact htable value (List.mem_of_getElem? hvalue)

theorem base64Value_lt (b : UInt8) : base64Value b < 64 := by
  unfold base64Value
  split
  · decide
  · exact fromBase64_lt _

theorem collect_mode (hrange : l.InRange) (b : UInt8) {v : Nat} (hv : v < 64) :
    (l.collect b v).target = l.target ++ (decodeBase64 l.base64Counter l.bits v).2 ∧
      DecoderState.unicode (l.collect b v).base64Counter (l.collect b v).bits =
        (decodeBase64 l.base64Counter l.bits v).1 ∧
      (l.collect b v).source = l.source ∧ (l.collect b v).inDirectMode = l.inDirectMode ∧
      (l.collect b v).err = l.err ∧ (l.collect b v).InRange := by
  obtain ⟨hge, hle, -⟩ := hrange
  unfold collect decodeBase64 InRange
  split
  · exact ⟨(List.append_nil _).symm, rfl, rfl, rfl, rfl, (by decide : (-1 : Int) ≤ 1),
      (by decide : (1 : Int) ≤ 7), Nat.lt_trans hv (by decide)⟩
  split
  · exact ⟨(List.append_nil _).symm, rfl, rfl, rfl, rfl, by dsimp only; omega, by dsimp only; omega,
      Nat.mod_lt _ (by decide)⟩
  split
  · exact ⟨rfl, rfl, rfl, rfl, rfl, (by decide : (-1 : Int) ≤ 3), (by decide : (3 : Int) ≤ 7),
      Nat.lt_of_le_of_lt Nat.and_le_right (by decide)⟩
  split
  · exact ⟨rfl, rfl, rfl, rfl, rfl, (by decide : (-1 : Int) ≤ 6), (by decide : (6 : Int) ≤ 7),
      Nat.lt_of_le_of_lt Nat.and_le_right (by decide)⟩
  split
  · exact ⟨rfl, rfl, rfl, rfl, rfl, (by decide : (-1 : Int) ≤ 0), (by decide : (0 : Int) ≤ 7),
      (by decide : 0 < 0x10000)⟩
  · omega

theorem unicodeMode_mirrors (hlegal : (whole []).2.1 ≠ none)
    (h : Mirrors whole targetLimit .unicodeMode l) :
    Mirrors whole targetLimit (l.unicodeMode targetLimit).1 (l.unicodeMode targetLimit).2 := by
  have hmode : l.inDirectMode = false := h.atLabel
  have herr := h.err (by decide)
  have hnot : ¬ l.inDirectMode = true := by
    rw [hmode]
    exact Bool.false_ne_true
  unfold unicodeMode
  split
  · next hsource =>
    exact ⟨h.follows, h.inRange, fun hne => absurd rfl hne, fun hd => absurd hd hnot,
      Or.inl ⟨hsource, herr⟩⟩
  next b source hsource =>
  split
  swap
  · next hge =>
    refine ⟨h.follows, h.inRange, fun hne => absurd rfl hne, fun hd => absurd hd hnot,
      Or.inr ⟨Nat.le_of_not_lt hge, ?_, rfl⟩⟩
    rw [hsource]
    exact List.cons_ne_nil _ _
  obtain ⟨r, hunit, hfollows⟩ := legal_step hlegal h hsource
  rw [mode_of_unicode hmode] at hunit
  have hbyte : decodeUnicode l.base64Counter l.bits b = some r := hunit
  unfold decodeUnicode at hbyte
  rw [← base64Value]
  by_cases hout : base64Value b = -3 ∨ base64Value b = -1
  · rw [if_pos hout] at hbyte ⊢
    by_cases hbad : l.base64Counter = -1 ∨ l.bits ≠ 0 ∨ base64Value b = -3
    · rw [if_pos hbad] at hbyte
      cases hbyte
    obtain ⟨hcounter, hrest⟩ := not_or.mp hbad
    obtain ⟨hbits, hthree⟩ := not_or.mp hrest
    unfold leaveUnicodeMode
    rw [if_neg hcounter, if_neg hbits, if_neg hthree]
    -- the byte is read again in direct mode
    have hsame : decodeByte l.mode (some b) = decodeByte .direct (some b) := by
      rw [mode_of_unicode hmode, hunit, ← hbyte, if_neg hbad, decodeByte]
    refine ⟨fun more => ?_, h.inRange, fun _ => herr, rfl⟩
    rw [h.follows more, hsource, List.map_cons, List.cons_append, transduce_congr hsame]
    rfl
  rw [if_neg hout] at hbyte ⊢
  by_cases hdigit : base64Value b ≥ 0
  · rw [if_pos hdigit, Option.some.injEq] at hbyte
    rw [if_pos hdigit]
    have hlt := base64Value_lt b
    obtain ⟨htarget, hnext, hsource', hmode', herr', hrange⟩ :=
      @collect_mode { l with source, bytes := l.bytes ++ [b] } h.inRange b (base64Value b).toNat
        (by omega)
    refine ⟨?_, hrange, fun _ => herr'.trans herr, hmode'.trans hmode⟩
    rw [mode_of_unicode (hmode'.trans hmode), hnext, htarget, hsource']
    rw [← hbyte] at hfollows
    exact hfollows
  rw [if_neg hdigit] at hbyte ⊢
  unfold terminate
  by_cases hcounter : l.base64Counter = -1
  · rw [if_pos hcounter, Option.some.injEq] at hbyte
    rw [if_pos hcounter]
    rw [← hbyte] at hfollows
    exact ⟨hfollows, h.inRange, fun _ => herr, rfl⟩
  rw [if_neg hcounter] at hbyte ⊢
  by_cases hbits : l.bits ≠ 0
  · rw [if_pos hbits] at hbyte
    cases hbyte
  rw [if_neg hbits, Option.some.injEq] at hbyte
  rw [if_neg hbits]
  rw [← hbyte, List.append_nil] at hfollows
  exact ⟨hfollows, h.inRange, fun _ => herr, rfl⟩

theorem step_mirrors (hlegal : (whole []).2.1 ≠ none)
    (hstep : step targetLimit now = some next) (h : Mirrors whole targetLimit now.1 now.2) :
    Mirrors whole targetLimit next.1 next.2 := by
  obtain ⟨label, l⟩ := now
  cases label with
  | directMode =>
    cases hstep
    exact directMode_mirrors h
  | directLoop =>
    cases hstep
    exact directLoop_mirrors hlegal h
  | unicodeMode =>
    cases hstep
    exact unicodeMode_mirrors hlegal h
  | done => cases hstep

end Steps

end ToLocals

/-! ## The number of jumps -/

def ToLabel.weight : ToLabel → Nat
  | .unicodeMode => 3
  | .directMode => 2
  | .directLoop => 1
  | .done => 0

theorem ToLabel.weight_le (label : ToLabel) : label.weight ≤ 3 := by cases label <;> decide

namespace ToLocals

def measure (now : ToLabel × ToLocals) : Nat := 4 * now.2.source.length + now.1.weight

theorem measure_lt_of_read {source : List UInt8}
    (hsource : now.2.source = b :: source) (hnext : next.2.source = source) :
    measure next < measure now := by
  have hle := next.1.weight_le
  unfold measure
  rw [hsource, hnext, List.length_cons]
  omega

theorem measure_lt_of_weight (hsource : next.2.source = now.2.source)
    (hweight : next.1.weight < now.1.weight) : measure next < measure now := by
  unfold measure
  rw [hsource]
  omega

theorem collect_source (l : ToLocals) (b : UInt8) (v : Nat) :
    (l.collect b v).source = l.source := by
  unfold collect
  split
  · rfl
  split
  · rfl
  split
  · rfl
  split
  · rfl
  split
  · rfl
  · rfl

theorem directEnd_measure {targetLimit : Nat} {l : ToLocals}
    (h : 4 * l.source.length < measure now) : measure (l.directEnd targetLimit) < measure now := by
  unfold directEnd
  split
  · exact h
  · exact h

theorem unicodeMode_measure (targetLimit : Nat) (l : ToLocals) :
    measure (l.unicodeMode targetLimit) < measure (.unicodeMode, l) := by
  have hdone : ToLabel.done.weight < ToLabel.unicodeMode.weight := by decide
  have hdirect : ToLabel.directMode.weight < ToLabel.unicodeMode.weight := by decide
  unfold unicodeMode
  split
  · exact measure_lt_of_weight rfl hdone
  next b source hsource =>
  split
  swap
  · exact measure_lt_of_weight rfl hdone
  dsimp only
  rw [← base64Value]
  generalize base64Value b = v
  split
  · unfold leaveUnicodeMode
    dsimp only
    split
    · exact measure_lt_of_weight hsource.symm hdone
    split
    · exact measure_lt_of_weight hsource.symm hdone
    split
    · exact measure_lt_of_read hsource rfl
    · exact measure_lt_of_weight hsource.symm hdirect
  split
  · exact measure_lt_of_read hsource (collect_source _ _ _)
  unfold terminate
  dsimp only
  split
  · exact measure_lt_of_read hsource rfl
  split
  · exact measure_lt_of_read hsource rfl
  · exact measure_lt_of_read hsource rfl

theorem directEnd_source (targetLimit : Nat) (l : ToLocals) :
    (l.directEnd targetLimit).2.source = l.source := by
  unfold directEnd
  split
  · rfl
  · rfl

theorem step_suffix {targetLimit : Nat}
    (hstep : step targetLimit now = some next) : next.2.source <:+ now.2.source := by
  obtain ⟨label, l⟩ := now
  cases label with
  | directMode =>
    cases hstep
    exact List.suffix_refl _
  | directLoop =>
    cases hstep
    unfold directLoop
    split
    · next length b source hlength hsource =>
      have htail : source <:+ l.source := by
        rw [hsource]
        exact List.suffix_cons b source
      split
      · rw [directEnd_source]
        exact htail
      split
      · exact htail
      · exact htail
    · simp [directEnd_source]
  | unicodeMode =>
    cases hstep
    unfold unicodeMode
    split
    · exact List.suffix_refl _
    next b source hsource =>
    have htail : source <:+ l.source := by
      rw [hsource]
      exact List.suffix_cons b source
    have hall : b :: source <:+ l.source := by
      simp [hsource]
    split
    swap
    · exact List.suffix_refl _
    dsimp only
    rw [← base64Value]
    generalize base64Value b = v
    split
    · unfold leaveUnicodeMode
      dsimp only
      split
      · exact hall
      split
      · exact hall
      split
      · exact htail
      · exact hall
    split
    · rw [collect_source]
      exact htail
    unfold terminate
    dsimp only
    split
    · exact htail
    split
    · exact htail
    · exact htail
  | done => cases hstep

theorem step_measure {targetLimit : Nat}
    (hstep : step targetLimit now = some next) : measure next < measure now := by
  obtain ⟨label, l⟩ := now
  cases label with
  | directMode =>
    cases hstep
    exact measure_lt_of_weight rfl
      (by decide : ToLabel.directLoop.weight < ToLabel.directMode.weight)
  | directLoop =>
    cases hstep
    unfold directLoop
    split
    · next length b source hlength hsource =>
      split
      · refine directEnd_measure ?_
        unfold measure
        dsimp only
        rw [hsource, List.length_cons]
        omega
      split
      · exact measure_lt_of_read hsource rfl
      · exact measure_lt_of_read hsource rfl
    · exact directEnd_measure (Nat.lt_succ_self _)
  | unicodeMode =>
    cases hstep
    exact unicodeMode_measure targetLimit l
  | done => cases hstep

end ToLocals

def toStatusOf (inDirectMode : Bool) (base64Counter : Int) (bits : Nat) : Nat :=
  flag inDirectMode <<< 24 ||| (base64Counter % 0x100).toNat <<< 16 ||| bits

section Status

variable {inDirectMode : Bool} {base64Counter : Int} {bits : Nat}

theorem toStatusOf_eq (hbits : bits < 0x10000) : toStatusOf inDirectMode base64Counter bits =
    flag inDirectMode * 2 ^ 24 + ((base64Counter % 0x100).toNat * 2 ^ 16 + bits) := by
  rw [toStatusOf, Nat.or_assoc, @Bits.or_low _ bits 16 hbits,
    @Bits.or_low (flag inDirectMode) _ 24 (by omega)]

theorem toStatusOf_inDirectMode (hbits : bits < 0x10000) :
    (toStatusOf inDirectMode base64Counter bits >>> 24 &&& 1 == 1) = inDirectMode := by
  have hdiv : toStatusOf inDirectMode base64Counter bits >>> 24 = flag inDirectMode := by
    rw [Nat.shiftRight_eq_div_pow, toStatusOf_eq hbits]
    omega
  rw [hdiv]
  cases inDirectMode <;> rfl

theorem toStatusOf_base64Counter (hge : -1 ≤ base64Counter) (hle : base64Counter ≤ 7)
    (hbits : bits < 0x10000) :
    int8 (toStatusOf inDirectMode base64Counter bits >>> 16) = base64Counter := by
  have hdiv : toStatusOf inDirectMode base64Counter bits >>> 16 =
      flag inDirectMode * 2 ^ 8 + (base64Counter % 0x100).toNat := by
    rw [Nat.shiftRight_eq_div_pow, toStatusOf_eq hbits]
    omega
  rw [hdiv]
  apply int8_eq
  · omega
  · omega
  · omega

theorem toStatusOf_bits (hbits : bits < 0x10000) :
    toStatusOf inDirectMode base64Counter bits % 0x10000 = bits := by
  rw [toStatusOf_eq hbits]
  omega

end Status

/-! ## A call -/

def Decoder.state (cnv : Decoder) : DecoderState :=
  if cnv.toUnicodeStatus >>> 24 &&& 1 == 1 then .direct
  else .unicode (int8 (cnv.toUnicodeStatus >>> 16)) (cnv.toUnicodeStatus % 0x10000)

def Decoder.Ready (cnv : Decoder) : Prop :=
  ∃ inDirectMode base64Counter bits, -1 ≤ base64Counter ∧ base64Counter ≤ 7 ∧ bits < 0x10000 ∧
    cnv.toUnicodeStatus = toStatusOf inDirectMode base64Counter bits ∧
      (inDirectMode = true → cnv.toUBytes = [])

theorem Decoder.ready_initial : Decoder.initial.Ready :=
  ⟨true, 0, 0, by decide, by decide, by decide, by decide, fun _ => rfl⟩

theorem Decoder.state_of_status {inDirectMode : Bool} {base64Counter : Int} {bits : Nat}
    (hge : -1 ≤ base64Counter) (hle : base64Counter ≤ 7) (hbits : bits < 0x10000)
    (h : cnv.toUnicodeStatus = toStatusOf inDirectMode base64Counter bits) :
    cnv.state = if inDirectMode then .direct else .unicode base64Counter bits := by
  rw [Decoder.state, h, toStatusOf_inDirectMode hbits, toStatusOf_base64Counter hge hle hbits,
    toStatusOf_bits hbits]

theorem Decoder.Ready.inRange (h : cnv.Ready) :
    -1 ≤ int8 (cnv.toUnicodeStatus >>> 16) ∧ int8 (cnv.toUnicodeStatus >>> 16) ≤ 7 ∧
      cnv.toUnicodeStatus % 0x10000 < 0x10000 := by
  obtain ⟨inDirectMode, k, bits, hge, hle, hbits, heq, -⟩ := h
  rw [heq, toStatusOf_base64Counter hge hle hbits]
  exact ⟨hge, hle, Nat.mod_lt _ (by decide)⟩

theorem toUnicodeLocals_invariant {I : ToLabel × ToLocals → Prop} {targetLimit : Nat}
    (hstep : ∀ {now next}, ToLocals.step targetLimit now = some next → I now → I next)
    {cnv : Decoder} {source : List UInt8}
    (hstart : I (if cnv.toUnicodeStatus >>> 24 &&& 1 == 1 then .directMode else .unicodeMode,
      ⟨source, [], 0, cnv.toUnicodeStatus >>> 24 &&& 1 == 1, int8 (cnv.toUnicodeStatus >>> 16),
        cnv.toUnicodeStatus % 0x10000, cnv.toUBytes, .zeroError⟩)) :
    I (.done, toUnicodeLocals cnv source targetLimit) := by
  unfold toUnicodeLocals
  dsimp only
  generalize hnow : ((if cnv.toUnicodeStatus >>> 24 &&& 1 == 1 then .directMode else .unicodeMode,
      ⟨source, [], 0, cnv.toUnicodeStatus >>> 24 &&& 1 == 1, int8 (cnv.toUnicodeStatus >>> 16),
        cnv.toUnicodeStatus % 0x10000, cnv.toUBytes, .zeroError⟩) : ToLabel × ToLocals) =
          start at hstart ⊢
  have hfuel : ToLocals.measure start < 4 * source.length + 4 := by
    have hweight := start.1.weight_le
    have hsource : start.2.source = source := by rw [← hnow]
    rw [ToLocals.measure, hsource]
    omega
  have hstop := Program.exec_halts (ToLocals.step targetLimit) ToLocals.step_measure hfuel
  have hfinal := @Program.exec_invariant _ (ToLocals.step targetLimit) I hstep
    (4 * source.length + 4) start hstart
  generalize Program.exec (ToLocals.step targetLimit) (4 * source.length + 4) start =
    p at hstop hfinal
  obtain ⟨label, l⟩ := p
  cases label with
  | done => exact hfinal
  | _ => cases hstop

theorem toUnicodeLocals_ended {cnv : Decoder} (h : cnv.Ready) {source : List UInt8}
    (hlegal : (transduce decodeByte cnv.state (source.map some)).2.1 ≠ none) (targetLimit : Nat) :
    ToLocals.Mirrors (fun more => transduce decodeByte cnv.state (source.map some ++ more))
      targetLimit .done (toUnicodeLocals cnv source targetLimit) := by
  refine @toUnicodeLocals_invariant (fun now => ToLocals.Mirrors
    (fun more => transduce decodeByte cnv.state (source.map some ++ more)) targetLimit now.1 now.2)
    targetLimit (fun hs hi => ToLocals.step_mirrors ?_ hs hi) cnv source
    ⟨fun more => ?_, ?_, fun _ => rfl, ?_⟩
  · rwa [List.append_nil]
  · rw [Decoder.state, ToLocals.mode, after_nil]
  · dsimp only [ToLocals.InRange]
    exact h.inRange
  · cases cnv.toUnicodeStatus >>> 24 &&& 1 == 1
    · rfl
    · rfl

theorem toDecoder_ready {l : ToLocals} {whole} {targetLimit : Nat}
    (hl : ToLocals.Mirrors whole targetLimit .done l) (flush : Bool) :
    (l.toDecoder flush).Ready ∧ (l.toDecoder flush).state = l.mode := by
  obtain ⟨hge, hle, hbits⟩ := hl.inRange
  refine ⟨⟨l.inDirectMode, l.base64Counter, l.bits, hge, hle, hbits, rfl, fun hd => ?_⟩, ?_⟩
  · rw [ToLocals.toDecoder]
    split
    · rfl
    · exact hl.atLabel.1 hd
  · rw [Decoder.state_of_status hge hle hbits rfl, ToLocals.mode]

/-- On legal bytes, a call does not change what the decoder writes. -/
theorem utf7ToUnicode_keeps (h : cnv.Ready)
    (hlegal : (transduce decodeByte cnv.state source).2.1 ≠ none) (targetLimit : Nat) :
    Keeps decodeByte Decoder.state Decoder.Ready cnv source (utf7ToUnicode cnv source targetLimit) ∧
      (utf7ToUnicode cnv source targetLimit).failed = false := by
  have hsplit := splitEnd_append source
  have hlegal' : (transduce decodeByte cnv.state ((splitEnd source).1.map some)).2.1 ≠ none := by
    intro hnone
    apply hlegal
    rw [← hsplit]
    exact transduce_append_of_none hnone
  have hl := toUnicodeLocals_ended h hlegal' targetLimit
  generalize hrun : toUnicodeLocals cnv (splitEnd source).1 targetLimit = l at hl
  have hfailed : (utf7ToUnicode cnv source targetLimit).failed = false := by
    unfold utf7ToUnicode
    dsimp only
    rw [hrun]
    obtain ⟨-, ⟨-, herr⟩ | ⟨-, -, herr⟩⟩ := hl.atLabel
    · rw [herr]
      rfl
    · rw [herr]
      rfl
  refine ⟨⟨fun _ => ?_, fun hfail => absurd (hfailed.symm.trans hfail) Bool.false_ne_true⟩, hfailed⟩
  unfold utf7ToUnicode
  dsimp only
  rw [hrun]
  obtain ⟨hready, hstate⟩ := toDecoder_ready hl (decide ((splitEnd source).2 ≠ []))
  refine ⟨hready, fun more => ?_⟩
  have hwhole := hl.follows ((splitEnd source).2 ++ more)
  rw [← List.append_assoc, hsplit] at hwhole
  rw [hstate, hwhole]
  obtain ⟨-, ⟨hsource, herr⟩ | ⟨-, hsource, -⟩⟩ := hl.atLabel
  · rw [if_pos ⟨hsource, herr⟩, hsource, List.map_nil, List.nil_append, List.nil_append]
    obtain hnil | ⟨rest, hrest⟩ := splitEnd_cases source
    · rw [hnil]
      rfl
    · have hend : decodeByte l.mode none = some (l.mode, []) := by cases l.mode <;> rfl
      rw [hrest, List.cons_append, transduce_cons hend, after_nil, List.tail_cons]
  · rw [if_neg (fun hboth => hsource hboth.1), List.append_assoc]

theorem utf7ToUnicode_suffix (cnv : Decoder) (source : List (Option UInt8)) (targetLimit : Nat) :
    (utf7ToUnicode cnv source targetLimit).rest <:+ source := by
  have hbytes : (toUnicodeLocals cnv (splitEnd source).1 targetLimit).source <:+
    (splitEnd source).1 := by
    unfold toUnicodeLocals
    exact @Program.exec_invariant _ (ToLocals.step targetLimit)
      (fun now => now.2.source <:+ (splitEnd source).1)
      (fun hs hi => (ToLocals.step_suffix hs).trans hi) _ _ (List.suffix_refl _)
  exact rest_suffix hbytes fun h => h.1

theorem utf7ToUnicode_rest (h : cnv.Ready)
    (hlegal : (transduce decodeByte cnv.state source).2.1 ≠ none) {targetLimit : Nat}
    (hroom : source.length < targetLimit) :
    (utf7ToUnicode cnv source targetLimit).rest = (splitEnd source).2.tail := by
  have hsplit := splitEnd_append source
  have hlegal' : (transduce decodeByte cnv.state ((splitEnd source).1.map some)).2.1 ≠ none := by
    intro hnone
    apply hlegal
    rw [← hsplit]
    exact transduce_append_of_none hnone
  have hl := toUnicodeLocals_ended h hlegal' targetLimit
  generalize hrun : toUnicodeLocals cnv (splitEnd source).1 targetLimit = l at hl
  have hend : l.source = [] ∧ l.err = .zeroError := by
    refine hl.atLabel.2.resolve_right fun hfull => ?_
    have hwhole := congrArg (fun r => r.1.length) (hl.follows [])
    have hlength := transduce_length_le @decodeByte_length_le ((splitEnd source).1.map some)
      cnv.state
    have hsplit' := congrArg List.length hsplit
    rw [List.append_nil, after, List.length_append] at hwhole
    rw [List.length_append] at hsplit'
    omega
  unfold utf7ToUnicode
  dsimp only
  rw [hrun, if_pos hend, hend.1, List.map_nil, List.nil_append]

end Icu.Utf7
