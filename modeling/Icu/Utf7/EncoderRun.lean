import Icu.Utf7.Encoder

/-! # The calls of the UTF-7 encoder

At each label the bytes that are written and the ones that wait in the overflow buffer are what the
transducer has written, and the overflow buffer is only used when the target is full.
-/

namespace Icu.Utf7

open Lib Lib.Transducer

variable {c : Nat} {source : List UInt16} {u : UInt16} {now next : FromLabel × FromLocals}

namespace FromLocals

variable {out : List UInt8} {l' : FromLocals}

def written (l : FromLocals) : List UInt8 := l.target ++ l.charErrorBuffer

def mode (l : FromLocals) : EncoderState :=
  if l.inDirectMode then .direct else .unicode l.base64Counter.toNat l.bits

/-- The overflow buffer is only used when the target is full. -/
def Room (targetLimit : Nat) (l : FromLocals) : Prop :=
  l.charErrorBuffer = [] ∨ targetLimit ≤ l.target.length

variable {targetLimit : Nat} {l : FromLocals}

theorem Room.buffer (h : l.Room targetLimit) (hlt : l.target.length < targetLimit) :
    l.charErrorBuffer = [] := by
  rcases h with h | h
  · exact h
  · omega

/-- Bytes are written, and the locals are otherwise as before. -/
structure Emits (targetLimit : Nat) (l : FromLocals) (out : List UInt8) (l' : FromLocals) :
    Prop where
  written : l'.written = l.written ++ out
  room : l'.Room targetLimit
  status : l'.fromUnicodeStatus = l.fromUnicodeStatus
  source : l'.source = l.source
  inDirectMode : l'.inDirectMode = l.inDirectMode
  base64Counter : l'.base64Counter = l.base64Counter
  bits : l'.bits = l.bits

theorem Emits.refl (h : l.Room targetLimit) : Emits targetLimit l [] l :=
  ⟨(List.append_nil _).symm, h, rfl, rfl, rfl, rfl, rfl⟩

theorem Emits.trans {l'' : FromLocals} {out' : List UInt8} (h : Emits targetLimit l out l')
    (h' : Emits targetLimit l' out' l'') : Emits targetLimit l (out ++ out') l'' where
  written := by rw [h'.written, h.written, List.append_assoc]
  room := h'.room
  status := h'.status.trans h.status
  source := h'.source.trans h.source
  inDirectMode := h'.inDirectMode.trans h.inDirectMode
  base64Counter := h'.base64Counter.trans h.base64Counter
  bits := h'.bits.trans h.bits

theorem put_emits (h : l.charErrorBuffer = []) (b : UInt8) : Emits targetLimit l [b] (l.put b) where
  written := by
    unfold written put
    rw [h, List.append_nil, List.append_nil]
  room := Or.inl h
  status := rfl
  source := rfl
  inDirectMode := rfl
  base64Counter := rfl
  bits := rfl

theorem putOrStore_emits (h : l.Room targetLimit) (b : UInt8) :
    Emits targetLimit l [b] (l.putOrStore targetLimit b) := by
  unfold putOrStore
  split
  · next hlt => exact put_emits (h.buffer hlt) b
  · next hge =>
    exact ⟨(List.append_assoc _ _ _).symm, Or.inr (Nat.le_of_not_lt hge), rfl, rfl, rfl, rfl, rfl⟩

theorem flushBits_written (h : l.Room targetLimit) (hcounter : 0 ≤ l.base64Counter)
    (direct : Nat → Bool) : ∃ out, encodeUnit direct l.mode none = some (.direct, out) ∧
      (l.flushBits targetLimit).written = l.written ++ out := by
  unfold flushBits mode
  cases l.inDirectMode with
  | true =>
    rw [if_pos rfl, if_pos rfl]
    exact ⟨[], rfl, (List.append_nil _).symm⟩
  | false =>
    rw [if_neg Bool.false_ne_true, if_neg Bool.false_ne_true]
    refine ⟨_, rfl, ?_⟩
    have hleft : Emits targetLimit l (leftOver l.base64Counter.toNat l.bits)
        (if l.base64Counter ≠ 0 then l.putOrStore targetLimit (toBase64 l.bits) else l) := by
      unfold leftOver
      by_cases hz : l.base64Counter = 0
      · rw [if_neg (not_not_intro hz), if_neg (by omega)]
        exact Emits.refl h
      · rw [if_pos hz, if_pos (by omega)]
        exact putOrStore_emits h _
    exact (hleft.trans (putOrStore_emits hleft.room _)).written

def InRange (l : FromLocals) : Prop :=
  0 ≤ l.base64Counter ∧ l.base64Counter ≤ 2 ∧ l.bits < 0x100

theorem shifted_bits_lt (c k m : Nat) (hm : m <<< k < 0x100) : (c &&& m) <<< k < 0x100 := by
  refine Nat.lt_of_le_of_lt ?_ hm
  rw [Nat.shiftLeft_eq, Nat.shiftLeft_eq]
  exact Nat.mul_le_mul_right _ Nat.and_le_right

structure Base64s (targetLimit : Nat) (l : FromLocals) (c : Nat) (l' : FromLocals) : Prop where
  written : l'.written = l.written ++ (encodeBase64 l.base64Counter.toNat l.bits c).2
  room : l'.Room targetLimit
  status : l'.fromUnicodeStatus = l.fromUnicodeStatus
  source : l'.source = l.source
  inDirectMode : l'.inDirectMode = l.inDirectMode
  mode : EncoderState.unicode l'.base64Counter.toNat l'.bits =
    (encodeBase64 l.base64Counter.toNat l.bits c).1
  inRange : l'.InRange

theorem Emits.base64s (h : Emits targetLimit l out l') (base64Counter : Int) (bits : Nat)
    (heq : encodeBase64 l.base64Counter.toNat l.bits c = (.unicode base64Counter.toNat bits, out))
    (hrange : 0 ≤ base64Counter ∧ base64Counter ≤ 2 ∧ bits < 0x100) :
    Base64s targetLimit l c { l' with bits, base64Counter } where
  written := by
    rw [heq]
    exact h.written
  room := h.room
  status := h.status
  source := h.source
  inDirectMode := h.inDirectMode
  mode := by rw [heq]
  inRange := hrange

theorem putBase64_base64s (hroom : l.Room targetLimit) (hlt : l.target.length < targetLimit)
    (hrange : l.InRange) (c : Nat) : Base64s targetLimit l c (l.putBase64 targetLimit c) := by
  obtain ⟨hge, hle, -⟩ := hrange
  have hput : ∀ b, Emits targetLimit l [b] (l.put b) := put_emits (hroom.buffer hlt)
  have hcases : l.base64Counter = 0 ∨ l.base64Counter = 1 ∨ l.base64Counter = 2 := by omega
  unfold putBase64
  rcases hcases with h | h | h
  · rw [if_pos h]
    refine ((hput _).trans (putOrStore_emits (hput _).room _)).base64s 1 _ ?_
      ⟨by decide, by decide, shifted_bits_lt c 2 15 (by decide)⟩
    rw [h]
    rfl
  · rw [if_neg (by omega), if_pos h]
    have hsecond := (hput (toBase64 (l.bits ||| c >>> 14))).trans
      (putOrStore_emits (hput _).room (toBase64 (c >>> 8 &&& 0x3f)))
    refine (hsecond.trans (putOrStore_emits hsecond.room _)).base64s 2 _ ?_
      ⟨by decide, by decide, shifted_bits_lt c 4 3 (by decide)⟩
    rw [h]
    rfl
  · rw [if_neg (by omega), if_neg (by omega), if_pos h]
    have hsecond := (hput (toBase64 (l.bits ||| c >>> 12))).trans
      (putOrStore_emits (hput _).room (toBase64 (c >>> 6 &&& 0x3f)))
    refine (hsecond.trans (putOrStore_emits hsecond.room _)).base64s 0 0 ?_
      ⟨by decide, by decide, by decide⟩
    rw [h]
    rfl

/-! ## The labels -/

/-- What holds at each label. At `directLoop` the counter is the number of units that surely fit. -/
def AtLabel (targetLimit : Nat) : FromLabel → FromLocals → Prop
  | .directMode, l => l.inDirectMode = true
  | .directLoop, l =>
    l.inDirectMode = true ∧ l.length = Min.min l.source.length (targetLimit - l.target.length)
  | .unicodeMode, l => l.inDirectMode = false
  | .done, l => l.source = [] ∨ targetLimit ≤ l.target.length

structure Mirrors (direct : Nat → Bool)
    (whole : List (Option UInt16) → List UInt8 × Option EncoderState × List (Option UInt16))
    (status targetLimit : Nat) (label : FromLabel) (l : FromLocals) : Prop where
  status : l.fromUnicodeStatus = status
  follows : Follows (encodeUnit direct) whole l.written l.mode (l.source.map some)
  room : l.Room targetLimit
  inRange : l.InRange
  atLabel : AtLabel targetLimit label l

section Steps

variable {direct : Nat → Bool} {status : Nat}
  {whole : List (Option UInt16) → List UInt8 × Option EncoderState × List (Option UInt16)}
  {length : Nat}

theorem mode_of_direct (h : l.inDirectMode = true) : l.mode = .direct := by
  rw [mode, h, if_pos rfl]

theorem mode_of_unicode (h : l.inDirectMode = false) :
    l.mode = .unicode l.base64Counter.toNat l.bits := by
  rw [mode, h, if_neg Bool.false_ne_true]

theorem directEnd_mirrors (hstatus : l.fromUnicodeStatus = status)
    (hfollows : Follows (encodeUnit direct) whole l.written l.mode (l.source.map some))
    (hroom : l.Room targetLimit) (hrange : l.InRange)
    (hend : l.source = [] ∨ targetLimit ≤ l.target.length) :
    Mirrors direct whole status targetLimit (l.directEnd targetLimit).1
      (l.directEnd targetLimit).2 := by
  unfold directEnd
  split
  · exact ⟨hstatus, hfollows, hroom, hrange, hend⟩
  · exact ⟨hstatus, hfollows, hroom, hrange, hend⟩

theorem Mirrors.put_direct
    (h : Mirrors direct whole status targetLimit .directLoop l) (hlength : l.length = length + 1)
    (hsource : l.source = u :: source) (hdirect : direct u.toNat = true) :
    Mirrors direct whole status targetLimit .directLoop
      { l.put (UInt8.ofNat u.toNat) with source, length } := by
  obtain ⟨hmode, hcount⟩ := h.atLabel
  have hlt : l.target.length < targetLimit := by omega
  have hput := @put_emits targetLimit l (h.room.buffer hlt) (UInt8.ofNat u.toNat)
  have hunit : encodeUnit direct l.mode (some u) = some (.direct, [UInt8.ofNat u.toNat]) := by
    rw [mode_of_direct hmode, encodeUnit, encodeCode, if_pos hdirect]
  have hfollows := h.follows
  rw [hsource, List.map_cons] at hfollows
  refine ⟨h.status, ?_, hput.room, h.inRange, hmode, ?_⟩
  · have hnext := hfollows.cons hunit
    rw [← hput.written, ← mode_of_direct hmode] at hnext
    exact hnext
  rw [hsource, List.length_cons] at hcount
  change length = Min.min source.length (targetLimit - (l.target ++ [UInt8.ofNat u.toNat]).length)
  rw [List.length_append, List.length_singleton]
  omega

theorem Mirrors.put_plus
    (h : Mirrors direct whole status targetLimit .directLoop l) (hlength : l.length = length + 1)
    (hsource : l.source = u :: source) (hdirect : direct u.toNat = false) (hplus : u.toNat = plus) :
    Follows (encodeUnit direct) whole (l.written ++ [UInt8.ofNat plus, UInt8.ofNat minus]) .direct
      (source.map some) ∧
      Emits targetLimit l [UInt8.ofNat plus] (l.put (UInt8.ofNat plus)) := by
  obtain ⟨hmode, hcount⟩ := h.atLabel
  have hlt : l.target.length < targetLimit := by omega
  have hunit : encodeUnit direct l.mode (some u) =
      some (.direct, [UInt8.ofNat plus, UInt8.ofNat minus]) := by
    rw [mode_of_direct hmode, encodeUnit, encodeCode, hdirect, if_neg Bool.false_ne_true,
      if_pos hplus]
  have hfollows := h.follows
  rw [hsource, List.map_cons] at hfollows
  exact ⟨hfollows.cons hunit, put_emits (h.room.buffer hlt) _⟩

theorem directLoop_mirrors (hdirect : ∀ c, l.encodeDirectly c = direct c)
    (h : Mirrors direct whole status targetLimit .directLoop l) :
    Mirrors direct whole status targetLimit (l.directLoop targetLimit).1
      (l.directLoop targetLimit).2 := by
  obtain ⟨hmode, hcount⟩ := h.atLabel
  unfold directLoop
  split
  · next length u source hlength hsource =>
    have hlt : l.target.length < targetLimit := by omega
    dsimp only
    rw [hdirect]
    cases hd : direct u.toNat with
    | true =>
      rw [if_pos rfl]
      exact h.put_direct hlength hsource hd
    | false =>
      rw [if_neg Bool.false_ne_true]
      by_cases hplus : u.toNat = plus
      · rw [if_pos hplus]
        obtain ⟨hfollows, hput⟩ := h.put_plus hlength hsource hd hplus
        rw [← List.singleton_append, ← List.append_assoc, ← hput.written,
          ← mode_of_direct hmode] at hfollows
        split
        · next hlt' =>
          have hput' := @put_emits targetLimit { l.put (UInt8.ofNat plus) with source }
            (hput.room.buffer hlt') (UInt8.ofNat minus)
          refine ⟨h.status, ?_, hput'.room, h.inRange, hmode⟩
          rw [hput'.written]
          exact hfollows
        · next hge =>
          have hbuffer : (l.put (UInt8.ofNat plus)).charErrorBuffer = [] := h.room.buffer hlt
          refine directEnd_mirrors h.status ?_ (Or.inr (Nat.le_of_not_lt hge)) h.inRange
            (Or.inr (Nat.le_of_not_lt hge))
          unfold written at hfollows
          rw [hbuffer, List.append_nil] at hfollows
          exact hfollows
      · rw [if_neg hplus]
        have hput := @put_emits targetLimit l (h.room.buffer hlt) (UInt8.ofNat plus)
        refine ⟨h.status, ?_, hput.room, ⟨Int.le_refl 0, Int.zero_le_ofNat 2, h.inRange.2.2⟩, rfl⟩
        intro more
        have hwhole := h.follows more
        rw [mode_of_direct hmode, hsource, List.map_cons, List.cons_append,
          @transduce_plus _ l.bits _ _ hd hplus, after_after, ← hput.written] at hwhole
        rw [hwhole, mode_of_unicode rfl]
        change _ = after _ (transduce _ _ (l.source.map some ++ more))
        rw [hsource]
        rfl
  · next hstop =>
    refine directEnd_mirrors h.status h.follows h.room h.inRange ?_
    rcases Nat.eq_zero_or_pos l.length with hz | hpos
    · rcases Nat.eq_zero_or_pos l.source.length with hs | hs
      · exact Or.inl (List.length_eq_zero_iff.mp hs)
      · exact Or.inr (by omega)
    · cases hs : l.source with
      | nil => exact Or.inl rfl
      | cons u source => exact absurd hs (hstop (l.length - 1) u source (by omega))

theorem directMode_mirrors (h : Mirrors direct whole status targetLimit .directMode l) :
    Mirrors direct whole status targetLimit (l.directMode targetLimit).1
      (l.directMode targetLimit).2 :=
  ⟨h.status, h.follows, h.room, h.inRange, h.atLabel, rfl⟩

theorem leaveUnicodeMode_mirrors
    (h : Mirrors direct whole status targetLimit .unicodeMode l) (hsource : l.source = u :: source)
    (hlt : l.target.length < targetLimit) (hdirect : direct u.toNat = true) :
    Mirrors direct whole status targetLimit (l.leaveUnicodeMode targetLimit u.toNat).1
      (l.leaveUnicodeMode targetLimit u.toNat).2 := by
  have hfollows : Follows (encodeUnit direct) whole
      (l.written ++ closing l.base64Counter.toNat l.bits u.toNat) .direct (l.source.map some) := by
    intro more
    rw [h.follows more, mode_of_unicode h.atLabel, hsource, List.map_cons, List.cons_append,
      transduce_closing hdirect, after_after]
  rw [closing, ← List.append_assoc] at hfollows
  have hbuffer := h.room.buffer hlt
  have hcounter := h.inRange.1
  unfold leaveUnicodeMode
  dsimp only
  generalize hl' : (if l.base64Counter ≠ 0 then _ else _ : FromLocals) = l'
  have hleft : Emits targetLimit { l with inDirectMode := true }
      (leftOver l.base64Counter.toNat l.bits) l' ∧ l'.charErrorBuffer = [] := by
    unfold leftOver
    by_cases hz : l.base64Counter = 0
    · rw [if_neg (not_not_intro hz)] at hl'
      rw [if_neg (by omega), ← hl']
      exact ⟨Emits.refl h.room, hbuffer⟩
    · rw [if_pos hz] at hl'
      rw [if_pos (by omega), ← hl']
      exact ⟨@put_emits targetLimit { l with inDirectMode := true } hbuffer _, hbuffer⟩
  obtain ⟨hemits, hbuffer'⟩ := hleft
  have hmode : l'.inDirectMode = true := hemits.inDirectMode
  have hrange : l'.InRange := by
    unfold InRange
    rw [hemits.base64Counter, hemits.bits]
    exact h.inRange
  have hwritten : l'.written = l.written ++ leftOver l.base64Counter.toNat l.bits := hemits.written
  have hsource' : l'.source = l.source := hemits.source
  rw [← hwritten, ← hsource', ← mode_of_direct hmode] at hfollows
  split
  · next hminus =>
    rw [if_pos hminus] at hfollows
    split
    · have hput := @put_emits targetLimit l' hbuffer' (UInt8.ofNat minus)
      refine ⟨hemits.status.trans h.status, ?_, hput.room, hrange, hmode⟩
      rw [hput.written]
      exact hfollows
    · next hge =>
      refine ⟨hemits.status.trans h.status, ?_, Or.inr (Nat.le_of_not_lt hge), hrange,
        Or.inr (Nat.le_of_not_lt hge)⟩
      unfold written at hfollows
      rw [hbuffer', List.append_nil] at hfollows
      exact hfollows
  · next hminus =>
    rw [if_neg hminus, List.append_nil] at hfollows
    exact ⟨hemits.status.trans h.status, hfollows, hemits.room, hrange, hmode⟩

theorem unicodeMode_mirrors (hdirect : ∀ c, l.encodeDirectly c = direct c)
    (h : Mirrors direct whole status targetLimit .unicodeMode l) :
    Mirrors direct whole status targetLimit (l.unicodeMode targetLimit).1
      (l.unicodeMode targetLimit).2 := by
  have hmode : l.inDirectMode = false := h.atLabel
  unfold unicodeMode
  split
  · next hsource => exact ⟨h.status, h.follows, h.room, h.inRange, Or.inl hsource⟩
  · next u source hsource =>
    split
    · next hlt =>
      rw [hdirect]
      cases hd : direct u.toNat with
      | true =>
        rw [if_pos rfl]
        exact leaveUnicodeMode_mirrors h hsource hlt hd
      | false =>
        rw [if_neg Bool.false_ne_true]
        have hbase64 := @putBase64_base64s targetLimit { l with source } h.room hlt h.inRange
          u.toNat
        have hmode' := hbase64.inDirectMode.trans hmode
        have hunit : encodeUnit direct l.mode (some u) =
            some (encodeBase64 l.base64Counter.toNat l.bits u.toNat) := by
          rw [mode_of_unicode hmode, encodeUnit, encodeCode, hd, if_neg Bool.false_ne_true]
        have hfollows := h.follows
        rw [hsource, List.map_cons] at hfollows
        have hnext := hfollows.cons hunit
        refine ⟨hbase64.status.trans h.status, ?_, hbase64.room, hbase64.inRange, hmode'⟩
        rw [mode_of_unicode hmode', hbase64.mode, hbase64.written, hbase64.source]
        exact hnext
    · next hge =>
      exact ⟨h.status, h.follows, h.room, h.inRange, Or.inr (Nat.le_of_not_lt hge)⟩

theorem step_mirrors (hstep : step targetLimit now = some next)
    (hdirect : ∀ c, now.2.encodeDirectly c = direct c)
    (h : Mirrors direct whole status targetLimit now.1 now.2) :
    Mirrors direct whole status targetLimit next.1 next.2 := by
  obtain ⟨label, l⟩ := now
  cases label with
  | directMode =>
    cases hstep
    exact directMode_mirrors h
  | directLoop =>
    cases hstep
    exact directLoop_mirrors hdirect h
  | unicodeMode =>
    cases hstep
    exact unicodeMode_mirrors hdirect h
  | done => cases hstep

end Steps

/-! ## The number of jumps -/

def needsBase64 (l : FromLocals) : Bool :=
  match l.source with
  | [] => false
  | u :: _ => !l.encodeDirectly u.toNat

end FromLocals

def FromLabel.weight : FromLabel → Bool → Nat
  | .done, _ => 0
  | .directMode, false => 2
  | .directMode, true => 3
  | .directLoop, false => 1
  | .directLoop, true => 2
  | .unicodeMode, false => 3
  | .unicodeMode, true => 1

theorem FromLabel.weight_le (label : FromLabel) (b : Bool) : label.weight b ≤ 3 := by
  cases label <;> cases b <;> decide

theorem FromLabel.weight_pos {label : FromLabel} (h : label ≠ .done) (b : Bool) :
    0 < label.weight b := by
  cases label <;> cases b <;> first | decide | exact absurd rfl h

namespace FromLocals

def measure (now : FromLabel × FromLocals) : Nat :=
  4 * now.2.source.length + now.1.weight now.2.needsBase64

theorem measure_lt_of_read (hsource : now.2.source = u :: source) (hnext : next.2.source = source) :
    measure next < measure now := by
  have hle := next.1.weight_le next.2.needsBase64
  unfold measure
  rw [hsource, hnext, List.length_cons]
  omega

theorem measure_lt_of_weight (hsource : next.2.source = now.2.source)
    (hstatus : next.2.fromUnicodeStatus = now.2.fromUnicodeStatus)
    (hweight : next.1.weight now.2.needsBase64 < now.1.weight now.2.needsBase64) :
    measure next < measure now := by
  have hneeds : next.2.needsBase64 = now.2.needsBase64 := by
    unfold needsBase64 encodeDirectly
    rw [hsource, hstatus]
  unfold measure
  rw [hneeds, hsource]
  omega

theorem putOrStore_source (targetLimit : Nat) (l : FromLocals) (b : UInt8) :
    (l.putOrStore targetLimit b).source = l.source := by
  unfold putOrStore
  split
  · rfl
  · rfl

theorem putBase64_source (targetLimit : Nat) (l : FromLocals) (c : Nat) :
    (l.putBase64 targetLimit c).source = l.source := by
  unfold putBase64
  split
  · exact putOrStore_source _ _ _
  split
  · exact (putOrStore_source _ _ _).trans (putOrStore_source _ _ _)
  split
  · exact (putOrStore_source _ _ _).trans (putOrStore_source _ _ _)
  · rfl

theorem directEnd_measure {targetLimit : Nat} {l : FromLocals}
    (h : 4 * l.source.length < measure now) : measure (l.directEnd targetLimit) < measure now := by
  unfold directEnd
  split
  · exact h
  · exact h

theorem leaveUnicodeMode_measure {targetLimit : Nat} {l : FromLocals} (h : l.needsBase64 = false) :
    measure (l.leaveUnicodeMode targetLimit c) < measure (.unicodeMode, l) := by
  have hlt : FromLabel.directMode.weight l.needsBase64 <
    FromLabel.unicodeMode.weight l.needsBase64 := by
    rw [h]
    decide
  have hpos := @FromLabel.weight_pos .unicodeMode (by decide) l.needsBase64
  unfold leaveUnicodeMode
  dsimp only
  generalize hl' : (if l.base64Counter ≠ 0 then _ else _ : FromLocals) = l'
  have hsame : l'.source = l.source ∧ l'.fromUnicodeStatus = l.fromUnicodeStatus := by
    rw [← hl']
    split
    · exact ⟨rfl, rfl⟩
    · exact ⟨rfl, rfl⟩
  split
  · split
    · exact measure_lt_of_weight hsame.1 hsame.2 hlt
    · exact measure_lt_of_weight hsame.1 hsame.2 hpos
  · exact measure_lt_of_weight hsame.1 hsame.2 hlt

theorem directEnd_source (targetLimit : Nat) (l : FromLocals) :
    (l.directEnd targetLimit).2.source = l.source := by
  unfold directEnd
  split
  · rfl
  · rfl

theorem leaveUnicodeMode_source (targetLimit : Nat) (l : FromLocals) (c : Nat) :
    (l.leaveUnicodeMode targetLimit c).2.source = l.source := by
  unfold leaveUnicodeMode
  dsimp only
  generalize hl' : (if l.base64Counter ≠ 0 then _ else _ : FromLocals) = l'
  have hsame : l'.source = l.source := by
    rw [← hl']
    split
    · rfl
    · rfl
  split
  · split
    · exact hsame
    · exact hsame
  · exact hsame

theorem step_suffix {targetLimit : Nat}
    (hstep : step targetLimit now = some next) : next.2.source <:+ now.2.source := by
  obtain ⟨label, l⟩ := now
  cases label with
  | directMode =>
    cases hstep
    exact List.suffix_refl _
  | directLoop =>
    cases hstep
    unfold directLoop
    split
    · next length u source hlength hsource =>
      have htail : source <:+ l.source := by
        rw [hsource]
        exact List.suffix_cons u source
      dsimp only
      split
      · exact htail
      split
      · split
        · exact htail
        rw [directEnd_source]
        exact htail
      · exact List.suffix_refl _
    · simp [directEnd_source]
  | unicodeMode =>
    cases hstep
    unfold unicodeMode
    split
    · exact List.suffix_refl _
    next u source hsource =>
    split
    · split
      · simp [leaveUnicodeMode_source]
      rw [putBase64_source, hsource]
      exact List.suffix_cons u source
    · exact List.suffix_refl _
  | done => cases hstep

theorem step_measure {targetLimit : Nat}
    (hstep : step targetLimit now = some next) : measure next < measure now := by
  obtain ⟨label, l⟩ := now
  cases label with
  | directMode =>
    cases hstep
    refine measure_lt_of_weight rfl rfl ?_
    change FromLabel.directLoop.weight l.needsBase64 < FromLabel.directMode.weight l.needsBase64
    cases l.needsBase64 <;> decide
  | directLoop =>
    cases hstep
    unfold directLoop
    split
    · next length u source hlength hsource =>
      dsimp only
      split
      · exact measure_lt_of_read hsource rfl
      next hdirect =>
      split
      · split
        · exact measure_lt_of_read hsource rfl
        refine directEnd_measure ?_
        unfold measure
        dsimp only
        rw [hsource, List.length_cons]
        omega
      · refine measure_lt_of_weight rfl rfl ?_
        have hneeds : l.needsBase64 = true := by
          rw [needsBase64, hsource]
          simpa using hdirect
        change FromLabel.unicodeMode.weight l.needsBase64 <
          FromLabel.directLoop.weight l.needsBase64
        rw [hneeds]
        decide
    · refine directEnd_measure ?_
      have hpos := @FromLabel.weight_pos .directLoop (by decide) l.needsBase64
      unfold measure
      dsimp only
      omega
  | unicodeMode =>
    cases hstep
    have hpos := @FromLabel.weight_pos .unicodeMode (by decide) l.needsBase64
    unfold unicodeMode
    split
    · exact measure_lt_of_weight rfl rfl hpos
    next u source hsource =>
    split
    · split
      · next hdirect =>
        have hneeds : l.needsBase64 = false := by
          rw [needsBase64, hsource]
          simpa using hdirect
        exact leaveUnicodeMode_measure hneeds
      · exact measure_lt_of_read hsource (putBase64_source _ _ _)
    · exact measure_lt_of_weight rfl rfl hpos
  | done => cases hstep

end FromLocals

/-! ## A call -/

def encoderState (status : Nat) : EncoderState :=
  if status >>> 24 &&& 1 == 1 then .direct
  else .unicode (int8 (status >>> 16)).toNat (status % 0x100)

def EncoderReady (version status : Nat) : Prop :=
  ∃ inDirectMode base64Counter bits, base64Counter ≤ 2 ∧ bits < 0x100 ∧
    status = statusOf version inDirectMode base64Counter bits

section Call

variable {version status : Nat}

theorem encoderReady_initial : EncoderReady version (statusOf version true 0 0) :=
  ⟨true, 0, 0, by decide, by decide, rfl⟩

theorem encoderState_statusOf {inDirectMode : Bool} {base64Counter bits : Nat}
    (hcounter : base64Counter ≤ 2) (hbits : bits < 0x100) :
    encoderState (statusOf version inDirectMode base64Counter bits) =
      if inDirectMode then .direct else .unicode base64Counter bits := by
  rw [encoderState, statusOf_inDirectMode hcounter hbits, statusOf_base64Counter hcounter hbits,
    statusOf_bits hbits, Int.toNat_natCast]

section

variable (h : EncoderReady version status)
include h

theorem EncoderReady.version_eq : status / 2 ^ 28 = version := by
  obtain ⟨inDirectMode, k, bits, hk, hbits, rfl⟩ := h
  exact statusOf_version hk hbits

theorem EncoderReady.lt (hv : version ≤ 1) : status < 0x100000000 := by
  have := h.version_eq
  omega

theorem EncoderReady.encodeDirectly (hv : version ≤ 1)
    {l : FromLocals} (hl : l.fromUnicodeStatus = status) (c : Nat) :
    l.encodeDirectly c = directIn version c := by
  have hversion := h.version_eq
  have hiff : status < 0x10000000 ↔ version = 0 := by omega
  rw [FromLocals.encodeDirectly, directIn, hl]
  by_cases hz : version = 0
  · rw [if_pos hz, if_pos (hiff.mpr hz)]
  · rw [if_neg hz, if_neg (mt hiff.mp hz)]

theorem EncoderReady.inRange :
    0 ≤ int8 (status >>> 16) ∧ int8 (status >>> 16) ≤ 2 ∧ status % 0x100 < 0x100 := by
  obtain ⟨inDirectMode, k, bits, hk, hbits, rfl⟩ := h
  rw [statusOf_base64Counter hk hbits]
  exact ⟨Int.natCast_nonneg k, by omega, Nat.mod_lt _ (by decide)⟩

end

/-- The loops end with all units read or the target full, and the bytes of the transducer
written. -/
theorem fromUnicodeLocals_ended (hv : version ≤ 1) (h : EncoderReady version status)
    (source : List UInt16) (targetLimit : Nat) :
    ∃ l : FromLocals, (∀ flush, fromUnicodeLocals status source flush targetLimit =
        l.finish targetLimit flush) ∧
      FromLocals.Mirrors (directIn version)
        (fun more => transduce (encodeUnit (directIn version)) (encoderState status)
          (source.map some ++ more)) status targetLimit .done l := by
  have hdirect := fun {l : FromLocals} => h.encodeDirectly (l := l) hv
  let start : FromLabel × FromLocals :=
    (if status >>> 24 &&& 1 == 1 then .directMode else .unicodeMode,
      ⟨status, source, [], 0, status >>> 24 &&& 1 == 1, int8 (status >>> 16), status % 0x100, [],
        .zeroError⟩)
  let whole : List (Option UInt16) → _ := fun more =>
    transduce (encodeUnit (directIn version)) (encoderState status) (source.map some ++ more)
  have hstart : FromLocals.Mirrors (directIn version) whole status targetLimit start.1 start.2 := by
    have hmode : start.2.mode = encoderState status := by rw [encoderState, FromLocals.mode]
    have hrange : start.2.InRange := by
      unfold FromLocals.InRange
      dsimp only [start]
      exact h.inRange
    refine ⟨rfl, fun more => ?_, Or.inl rfl, hrange, ?_⟩
    · rw [hmode, FromLocals.written, List.append_nil, after_nil]
    dsimp only [start]
    cases status >>> 24 &&& 1 == 1
    · rfl
    · rfl
  have hfuel : FromLocals.measure start < 4 * source.length + 4 := by
    have := start.1.weight_le start.2.needsBase64
    unfold FromLocals.measure
    dsimp only [start] at this ⊢
    omega
  have hstop := Program.exec_halts (FromLocals.step targetLimit) FromLocals.step_measure hfuel
  have hfinal := Program.exec_invariant (FromLocals.step targetLimit)
    (I := fun now => FromLocals.Mirrors (directIn version) whole status targetLimit now.1 now.2)
    (fun hs hi => FromLocals.step_mirrors hs (hdirect hi.status) hi) (4 * source.length + 4) hstart
  refine ⟨(Program.exec (FromLocals.step targetLimit) (4 * source.length + 4) start).2, fun flush =>
    ?_, ?_⟩
  · rw [fromUnicodeLocals]
  generalize Program.exec (FromLocals.step targetLimit) (4 * source.length + 4) start =
    p at hstop hfinal
  obtain ⟨label, l⟩ := p
  cases label with
  | done => exact hfinal
  | _ => cases hstop

/-- The bytes of the transducer for a flushed text are written by the end of the call. -/
theorem finish_flushed {l : FromLocals} {targetLimit : Nat} {whole} (hv : version ≤ 1)
    (h : EncoderReady version status) (hsource : l.source = [])
    (hl : FromLocals.Mirrors (directIn version) whole status targetLimit .done l)
    (more : List (Option UInt16)) :
    (l.finish targetLimit true).fromUnicodeStatus = statusOf version true 0 0 ∧
      whole (none :: more) = after (l.finish targetLimit true).written
        (transduce (encodeUnit (directIn version)) .direct more) := by
  obtain ⟨out, hunit, hwritten⟩ :=
    FromLocals.flushBits_written hl.room hl.inRange.1 (directIn version)
  have hfollows := hl.follows (none :: more)
  rw [hsource, List.map_nil, List.nil_append, transduce_cons hunit, after_after,
    ← hwritten] at hfollows
  rw [FromLocals.finish, if_pos ⟨rfl, hsource⟩]
  refine ⟨?_, hfollows⟩
  rw [hl.status]
  exact statusOf_reset (h.lt hv) h.version_eq

theorem finish_unflushed {l : FromLocals} {targetLimit : Nat} {flush : Bool} {whole}
    (hv : version ≤ 1)
    (h : EncoderReady version status) (hflush : ¬ (flush = true ∧ l.source = []))
    (hl : FromLocals.Mirrors (directIn version) whole status targetLimit .done l) :
    EncoderReady version (l.finish targetLimit flush).fromUnicodeStatus ∧
      encoderState (l.finish targetLimit flush).fromUnicodeStatus = l.mode ∧
      (l.finish targetLimit flush).written = l.written := by
  obtain ⟨hge, hle, hbits⟩ := hl.inRange
  have hcounter : l.base64Counter.toNat ≤ 2 := by omega
  have hstatus : (l.finish targetLimit flush).fromUnicodeStatus =
      statusOf version l.inDirectMode l.base64Counter.toNat l.bits := by
    rw [FromLocals.finish, if_neg hflush]
    rw [hl.status]
    exact statusOf_eq (h.lt hv) h.version_eq hcounter hbits
  refine ⟨⟨_, _, _, hcounter, hbits, hstatus⟩, ?_, ?_⟩
  · rw [hstatus, encoderState_statusOf hcounter hbits, FromLocals.mode]
  rw [FromLocals.finish, if_neg hflush]
  rfl

theorem flushBits_source (targetLimit : Nat) (l : FromLocals) :
    (l.flushBits targetLimit).source = l.source := by
  unfold FromLocals.flushBits
  split
  · rfl
  rw [FromLocals.putOrStore_source]
  split
  · exact FromLocals.putOrStore_source _ _ _
  · rfl

theorem finish_source (targetLimit : Nat) (flush : Bool) (l : FromLocals) :
    (l.finish targetLimit flush).source = l.source := by
  unfold FromLocals.finish
  split
  · exact flushBits_source targetLimit l
  · rfl

/-- A call does not change what the encoder writes for the text. -/
theorem utf7FromUnicode_keeps (hv : version ≤ 1) (h : EncoderReady version status)
    (source : List (Option UInt16)) (targetLimit : Nat) :
    Keeps (encodeUnit (directIn version)) encoderState (EncoderReady version) status source
      (utf7FromUnicode status source targetLimit) := by
  obtain ⟨l, hrun, hl⟩ := fromUnicodeLocals_ended hv h (splitEnd source).1 targetLimit
  have hsplit := splitEnd_append source
  refine ⟨fun _ => ?_, (by intro hfail; cases hfail)⟩
  unfold utf7FromUnicode
  dsimp only
  rw [hrun]
  by_cases hflush : decide ((splitEnd source).2 ≠ []) = true ∧ l.source = []
  · obtain ⟨hend, hsource⟩ := hflush
    obtain hnil | ⟨rest, hrest⟩ := splitEnd_cases source
    · exact absurd hnil (of_decide_eq_true hend)
    rw [hend]
    obtain ⟨hstatus, -⟩ := finish_flushed hv h hsource hl []
    rw [hstatus, finish_source, hsource, if_pos rfl, hrest, List.tail_cons, List.map_nil,
      List.nil_append]
    refine ⟨encoderReady_initial, fun more => ?_⟩
    have hwhole := (finish_flushed hv h hsource hl (rest ++ more)).2
    rw [encoderState_statusOf (by decide) (by decide), if_pos rfl]
    rw [← hsplit, hrest, List.append_assoc]
    exact hwhole
  obtain ⟨hready, hstate, hwritten⟩ := finish_unflushed hv h hflush hl
  refine ⟨hready, fun more => ?_⟩
  have hwhole := hl.follows ((splitEnd source).2 ++ more)
  rw [← List.append_assoc, hsplit] at hwhole
  have hrest : (if l.source = [] then (splitEnd source).2.tail else (splitEnd source).2) =
      (splitEnd source).2 := by
    by_cases hempty : l.source = []
    · have hnil : (splitEnd source).2 = [] := by
        by_contra hne
        exact hflush ⟨decide_eq_true hne, hempty⟩
      rw [if_pos hempty, hnil]
      rfl
    · rw [if_neg hempty]
  rw [finish_source, hrest, hstate, List.append_assoc]
  rw [← hwritten] at hwhole
  exact hwhole

theorem utf7FromUnicode_suffix (status : Nat) (source : List (Option UInt16)) (targetLimit : Nat) :
    (utf7FromUnicode status source targetLimit).rest <:+ source := by
  have hunits : ∀ flush, (fromUnicodeLocals status (splitEnd source).1 flush targetLimit).source <:+
      (splitEnd source).1 := by
    intro flush
    unfold fromUnicodeLocals
    rw [finish_source]
    exact @Program.exec_invariant _ (FromLocals.step targetLimit)
      (fun now => now.2.source <:+ (splitEnd source).1)
      (fun hs hi => (FromLocals.step_suffix hs).trans hi) _ _ (List.suffix_refl _)
  exact rest_suffix (hunits _) id

theorem utf7FromUnicode_rest (hv : version ≤ 1) (h : EncoderReady version status)
    {source : List (Option UInt16)} {targetLimit : Nat} (hroom : 3 * source.length < targetLimit) :
    (utf7FromUnicode status source targetLimit).rest = (splitEnd source).2.tail := by
  obtain ⟨l, hrun, hl⟩ := fromUnicodeLocals_ended hv h (splitEnd source).1 targetLimit
  have hsource : l.source = [] := by
    refine (hl.atLabel : l.source = [] ∨ targetLimit ≤ l.target.length).resolve_right fun hfull =>
      ?_
    have hwhole := congrArg (fun r => r.1.length) (hl.follows [])
    have hlength := transduce_length_le (@encodeUnit_length_le (directIn version))
      ((splitEnd source).1.map some) (encoderState status)
    have hsplit := congrArg List.length (splitEnd_append source)
    rw [List.append_nil, after, List.length_append, FromLocals.written,
      List.length_append] at hwhole
    rw [List.length_append] at hsplit
    omega
  unfold utf7FromUnicode
  dsimp only
  rw [hrun, finish_source, hsource, if_pos rfl, List.map_nil, List.nil_append]

end Call

end Icu.Utf7
