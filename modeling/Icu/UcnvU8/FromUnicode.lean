import Icu.UcnvU8.Offsets
import Icu.Lib.Peeking
import Icu.StrTrans.ToUtf8Loops

/-! # The encoder as a transducer

The encoder reads one unit at a time and keeps a surrogate until it knows the next unit. A
call of `ucnv_fromUnicode_UTF8` follows this transducer.
-/

namespace Icu.UcnvU8

open Utf16 Lib Lib.Peeking
open StrTrans (appendUTF8 twoBytes threeBytes fourBytes u16IsSurrogateLead)

variable {u : UInt16}

def encodeUnit (isCESU8 : Bool) (s : Nat) (u : UInt16) : Move Nat UInt8 :=
  if s = 0 then
    if uIsSurrogate u.toNat ∧ !isCESU8 then .go u.toNat [] else .go 0 (appendUTF8 u.toNat)
  else if u16IsSurrogateLead s ∧ u16IsTrail u.toNat then
    .go 0 (appendUTF8 (u16GetSupplementary s u.toNat))
  else .refuse s

theorem appendUTF8_length_le (c : Nat) : (appendUTF8 c).length ≤ 4 := by
  rw [appendUTF8]
  split
  · simp
  split
  · simp [twoBytes]
  split
  · simp [threeBytes]
  · simp [fourBytes]

theorem encodeUnit_length_le {isCESU8 : Bool} {s s' : Nat} {u : UInt16} {out : List UInt8}
    (h : encodeUnit isCESU8 s u = .go s' out) : out.length ≤ 4 := by
  rw [encodeUnit] at h
  split at h
  · split at h
    · cases h
      exact Nat.zero_le _
    · cases h
      exact appendUTF8_length_le _
  · split at h
    · cases h
      exact appendUTF8_length_le _
    · cases h

theorem tempBuf_eq {c : Nat} (h : ¬ c < 0x800) : tempBuf c = appendUTF8 c := by
  rw [tempBuf, appendUTF8, if_neg (show ¬ c ≤ 0x7f by omega), if_neg (show ¬ c ≤ 0x7ff by omega)]

def IsSurrogate (c : Nat) : Prop := 0xd800 ≤ c ∧ c ≤ 0xdfff

theorem isSurrogate_of (h : uIsSurrogate u.toNat = true) : IsSurrogate u.toNat := by
  have hu := u.toNat_lt
  exact (uIsSurrogate_iff (by omega)).mp h

theorem pair_ge {s : Nat} (h : IsSurrogate s) (hl : u16IsSurrogateLead s = true)
    (ht : u16IsTrail u.toNat = true) : 0x10000 ≤ u16GetSupplementary s u.toNat := by
  have hu := u.toNat_lt
  have hs := h.2
  have htrail := (u16IsTrail_iff (by omega)).mp ht
  rw [StrTrans.u16IsSurrogateLead_eq ((uIsSurrogate_iff (by omega)).mpr h) (by omega),
    u16IsLead_iff (by omega)] at hl
  exact (u16GetSupplementary_bounds hl htrail).1

def FromConverter.Valid (cnv : FromConverter) : Prop :=
  cnv.fromUChar32 = 0 ∨ IsSurrogate cnv.fromUChar32

section Call

variable {isCESU8 : Bool} {targetLimit : Nat} {l : FromLocals}
  {whole : List UInt16 → Outcome Nat UInt16 UInt8} {s' s : FromLabel × FromLocals}

def FromLabel.weight : FromLabel → Nat
  | .loop => 1
  | .lowsurrogate => 2
  | .done => 0

@[simp] theorem FromLabel.weight_loop : FromLabel.loop.weight = 1 := rfl

@[simp] theorem FromLabel.weight_lowsurrogate : FromLabel.lowsurrogate.weight = 2 := rfl

@[simp] theorem FromLabel.weight_done : FromLabel.done.weight = 0 := rfl

/-- The units left, twice, and the label. -/
def FromLocals.measure (s : FromLabel × FromLocals) : Nat := 2 * s.2.source.length + s.1.weight

theorem FromLocals.writeSlowly_source (bytes : List UInt8) (l : FromLocals) :
    (l.writeSlowly targetLimit bytes).source = l.source := by
  induction bytes generalizing l with
  | nil => rfl
  | cons b bytes ih =>
    rw [writeSlowly]
    split
    · rw [ih]
    · rw [ih]

theorem FromLocals.putBytes_spec (l : FromLocals) : (l.putBytes targetLimit).1 = .loop ∧
    (l.putBytes targetLimit).2.source = l.source := by
  rw [putBytes]
  split
  · exact ⟨rfl, rfl⟩
  · exact ⟨rfl, writeSlowly_source _ l⟩

theorem FromLocals.putBytes_measure (l : FromLocals) :
    measure (l.putBytes targetLimit) = 2 * l.source.length + 1 := by
  obtain ⟨hlabel, hsource⟩ := @putBytes_spec targetLimit l
  rw [measure, hlabel, hsource, FromLabel.weight_loop]

theorem FromLocals.step_measure
    (h : FromLocals.step isCESU8 targetLimit s = some s') : measure s' < measure s := by
  obtain ⟨label, l⟩ := s
  cases label with
  | loop =>
    rw [← Option.some.inj h, FromLocals.loop]
    cases hs : l.source with
    | nil => simp [measure, hs]
    | cons c source =>
      dsimp only
      split_ifs
      all_goals
        simp [measure, putBytes_spec, hs]
        try omega
  | lowsurrogate =>
    rw [← Option.some.inj h, FromLocals.lowsurrogate]
    cases hs : l.source with
    | nil => simp [measure, hs]
    | cons c source =>
      dsimp only
      split
      · rw [putBytes_measure]
        simp only [measure, hs, List.length_cons]
        omega
      · simp [measure, hs]
  | done => cases h

theorem FromLocals.exec_done (cnv : FromConverter) (source : List UInt16) :
    FromLocals.step isCESU8 targetLimit (Program.exec (FromLocals.step isCESU8 targetLimit)
      (fromFuel source) (FromLocals.start targetLimit cnv source)) = none := by
  refine Program.exec_halts _ step_measure ?_
  rw [FromLocals.start, fromFuel]
  split <;> simp [measure]

/-! ## One call -/

structure FromRunning (targetLimit : Nat) (l : FromLocals) : Prop where
  empty : l.cnv.fromUChar32 = 0
  err : l.err ≠ .illegalCharFound
  room : l.target.length ≤ targetLimit
  buffer : l.charErrorBuffer = [] ∨ l.target.length = targetLimit

/-- The transducer state and the source give the rest of the whole output. -/
def FromFollows (isCESU8 : Bool) (whole : List UInt16 → Outcome Nat UInt16 UInt8) (l : FromLocals)
    (s : Nat) : Prop :=
  Follows (encodeUnit isCESU8) whole (l.target ++ l.charErrorBuffer) s l.source

structure FromEnded (isCESU8 : Bool) (whole : List UInt16 → Outcome Nat UInt16 UInt8)
    (targetLimit : Nat) (l : FromLocals) : Prop where
  proceeds : l.err ≠ .illegalCharFound →
    l.cnv.Valid ∧ FromFollows isCESU8 whole l l.cnv.fromUChar32
  fails : l.err = .illegalCharFound →
    Stops whole (l.target ++ l.charErrorBuffer) l.cnv.fromUChar32 l.source
  complete : l.err ≠ .illegalCharFound → l.source = [] ∨ l.target.length = targetLimit

def FromInv (isCESU8 : Bool) (whole : List UInt16 → Outcome Nat UInt16 UInt8) (targetLimit : Nat) :
    FromLabel × FromLocals → Prop
  | (.loop, l) => FromRunning targetLimit l ∧ FromFollows isCESU8 whole l 0
  | (.lowsurrogate, l) => FromRunning targetLimit l ∧ l.target.length < targetLimit ∧
    IsSurrogate l.ch ∧
      FromFollows isCESU8 whole l l.ch
  | (.done, l) => FromEnded isCESU8 whole targetLimit l

theorem FromRunning.writeSlowly (h : FromRunning targetLimit l) (bytes : List UInt8) :
    FromRunning targetLimit (l.writeSlowly targetLimit bytes) ∧
      (l.writeSlowly targetLimit bytes).target ++
        (l.writeSlowly targetLimit bytes).charErrorBuffer =
        l.target ++ l.charErrorBuffer ++ bytes := by
  induction bytes generalizing l with
  | nil => exact ⟨h, (List.append_nil _).symm⟩
  | cons b bytes ih =>
    rw [FromLocals.writeSlowly]
    split
    · next hroom =>
      have hbuffer : l.charErrorBuffer = [] := h.buffer.resolve_right (by omega)
      have hnext : FromRunning targetLimit { l with target := l.target ++ [b] } := by
        refine ⟨h.empty, h.err, ?_, Or.inl hbuffer⟩
        rw [List.length_append, List.length_singleton]
        exact hroom
      obtain ⟨hrun, hout⟩ := ih hnext
      refine ⟨hrun, ?_⟩
      rw [hout, hbuffer]
      simp
    · next hfull =>
      have hroom := h.room
      have hnext : FromRunning targetLimit
          { l with charErrorBuffer := l.charErrorBuffer ++ [b], err := .bufferOverflowError } :=
        ⟨h.empty, by simp, hroom, Or.inr (show l.target.length = targetLimit by omega)⟩
      obtain ⟨hrun, hout⟩ := ih hnext
      refine ⟨hrun, ?_⟩
      rw [hout]
      simp

theorem putBytes_inv (h : FromRunning targetLimit l) (hroom : l.target.length < targetLimit)
    (hch : ¬ l.ch < 0x800)
    (hf : Follows (encodeUnit isCESU8) whole (l.target ++ appendUTF8 l.ch) 0 l.source) :
    FromInv isCESU8 whole targetLimit (l.putBytes targetLimit) := by
  have hbuffer : l.charErrorBuffer = [] := h.buffer.resolve_right (by omega)
  rw [FromLocals.putBytes]
  split
  · next hfour =>
    refine ⟨⟨h.empty, h.err, ?_, Or.inl hbuffer⟩, ?_⟩
    · have hlength := appendUTF8_length_le l.ch
      rw [List.length_append, tempBuf_eq hch]
      omega
    · dsimp only [FromFollows]
      rw [hbuffer, List.append_nil, tempBuf_eq hch]
      exact hf
  · obtain ⟨hrun, hout⟩ := h.writeSlowly (tempBuf l.ch)
    refine ⟨hrun, ?_⟩
    rw [FromFollows, hout, FromLocals.writeSlowly_source, hbuffer, List.append_nil, tempBuf_eq hch]
    exact hf

theorem lowsurrogate_inv (h : FromInv isCESU8 whole targetLimit (.lowsurrogate, l)) :
    FromInv isCESU8 whole targetLimit (l.lowsurrogate targetLimit) := by
  obtain ⟨hr, hroom, hsurrogate, hf⟩ := h
  have hch : l.ch ≠ 0 := by
    have hge := hsurrogate.1
    omega
  have hbuffer : l.charErrorBuffer = [] := hr.buffer.resolve_right (by omega)
  rw [FromLocals.lowsurrogate]
  split
  · next c source hsource =>
    rw [FromFollows, hsource, hbuffer, List.append_nil] at hf
    split
    · next hpair =>
      have hmove : encodeUnit isCESU8 l.ch c =
          .go 0 (appendUTF8 (u16GetSupplementary l.ch c.toNat)) := by
        rw [encodeUnit, if_neg hch, if_pos hpair]
      have hge := pair_ge hsurrogate hpair.1 hpair.2
      exact putBytes_inv ⟨hr.empty, hr.err, hr.room, Or.inl hbuffer⟩ hroom
        (show ¬ u16GetSupplementary l.ch c.toNat < 0x800 by omega) (hf.go hmove)
    · next hpair =>
      have hmove : encodeUnit isCESU8 l.ch c = .refuse l.ch := by
        rw [encodeUnit, if_neg hch, if_neg hpair]
      refine ⟨fun hok => absurd rfl hok, fun _ => ?_, fun hok => absurd rfl hok⟩
      rw [hbuffer, List.append_nil, hsource]
      exact hf.refuse hmove
  · next hsource =>
    exact ⟨fun _ => ⟨Or.inr hsurrogate, hf⟩, fun hfail => absurd hfail hr.err,
      fun _ => Or.inl hsource⟩

theorem fromLoop_inv (h : FromInv isCESU8 whole targetLimit (.loop, l)) :
    FromInv isCESU8 whole targetLimit (l.loop isCESU8 targetLimit) := by
  obtain ⟨hr, hf⟩ := h
  have hended : l.source = [] ∨ ¬ l.target.length < targetLimit →
      FromEnded isCESU8 whole targetLimit l := by
    intro hend
    have hroom := hr.room
    refine ⟨fun _ => ⟨Or.inl hr.empty, ?_⟩, fun hfail => absurd hfail hr.err, fun _ => ?_⟩
    · rw [hr.empty]
      exact hf
    rcases hend with hend | hend
    · exact Or.inl hend
    · exact Or.inr (by omega)
  rw [FromLocals.loop]
  split
  · next hsource => exact hended (Or.inl hsource)
  next c source hsource =>
  split
  swap
  · next hfull => exact hended (Or.inr hfull)
  next hroom =>
  have hbuffer : l.charErrorBuffer = [] := hr.buffer.resolve_right (by omega)
  rw [FromFollows, hsource, hbuffer, List.append_nil] at hf
  have hsmall : c.toNat < 0x800 → encodeUnit isCESU8 0 c = .go 0 (appendUTF8 c.toNat) := by
    intro hlt
    rw [encodeUnit, if_pos rfl, if_neg]
    rintro ⟨hsurrogate, -⟩
    have hge := (isSurrogate_of hsurrogate).1
    omega
  dsimp only
  split
  · next hascii =>
    have hgo := hf.go (hsmall (by omega))
    rw [appendUTF8, if_pos (by omega)] at hgo
    refine ⟨⟨hr.empty, hr.err, ?_, Or.inl hbuffer⟩, ?_⟩
    · rw [List.length_append, List.length_singleton]
      exact hroom
    dsimp only [FromFollows]
    rw [hbuffer, List.append_nil]
    exact hgo
  next hascii =>
  split
  · next htwo =>
    have hgo := hf.go (hsmall htwo)
    rw [appendUTF8, if_neg (by omega), if_pos (by omega), twoBytes] at hgo
    split
    · next hmore =>
      refine ⟨⟨hr.empty, hr.err, ?_, Or.inl hbuffer⟩, ?_⟩
      · dsimp only
        rw [List.length_append, List.length_singleton]
        exact hmore
      · dsimp only [FromFollows]
        rw [hbuffer, List.append_nil, List.append_assoc]
        exact hgo
    · next hfull =>
      rw [List.length_append, List.length_singleton] at hfull
      have hlength : (l.target ++ [UInt8.ofNat ((c.toNat >>> 6) ||| 0xc0)]).length =
        targetLimit := by
        rw [List.length_append, List.length_singleton]
        omega
      refine ⟨⟨hr.empty, by simp, Nat.le_of_eq hlength, Or.inr hlength⟩, ?_⟩
      dsimp only [FromFollows]
      rw [List.append_assoc]
      exact hgo
  next hlarge =>
  split
  · next hsurrogate =>
    have hmove : encodeUnit isCESU8 0 c = .go c.toNat [] := by
      rw [encodeUnit, if_pos rfl, if_pos hsurrogate]
    refine ⟨⟨hr.empty, hr.err, hr.room, Or.inl hbuffer⟩, hroom, isSurrogate_of hsurrogate.1, ?_⟩
    dsimp only [FromFollows]
    rw [hbuffer, List.append_nil]
    have hgo := hf.go hmove
    rwa [List.append_nil] at hgo
  · next hsurrogate =>
    have hmove : encodeUnit isCESU8 0 c = .go 0 (appendUTF8 c.toNat) := by
      rw [encodeUnit, if_pos rfl, if_neg hsurrogate]
    exact putBytes_inv ⟨hr.empty, hr.err, hr.room, Or.inl hbuffer⟩ hroom hlarge (hf.go hmove)

theorem fromStep_inv (hs : FromLocals.step isCESU8 targetLimit s = some s')
    (h : FromInv isCESU8 whole targetLimit s) : FromInv isCESU8 whole targetLimit s' := by
  obtain ⟨label, l⟩ := s
  cases label with
  | loop =>
    rw [← Option.some.inj hs]
    exact fromLoop_inv h
  | lowsurrogate =>
    rw [← Option.some.inj hs]
    exact lowsurrogate_inv h
  | done => cases hs

theorem fromExec_ended {cnv : FromConverter} {source : List UInt16}
    (h : FromInv isCESU8 whole targetLimit (FromLocals.start targetLimit cnv source)) :
    FromEnded isCESU8 whole targetLimit (Program.exec (FromLocals.step isCESU8 targetLimit)
      (fromFuel source) (FromLocals.start targetLimit cnv source)).2 := by
  have hdone := @FromLocals.exec_done isCESU8 targetLimit cnv source
  have hinv :=
    Program.exec_invariant (FromLocals.step isCESU8 targetLimit) fromStep_inv (fromFuel source) h
  generalize Program.exec (FromLocals.step isCESU8 targetLimit) (fromFuel source)
    (FromLocals.start targetLimit cnv source) = s at hdone hinv
  obtain ⟨label, l⟩ := s
  cases label with
  | loop => cases hdone
  | lowsurrogate => cases hdone
  | done => exact hinv

theorem FromEnded.finish (h : FromEnded isCESU8 whole targetLimit l) :
    FromEnded isCESU8 whole targetLimit (l.finish targetLimit) := by
  rw [FromLocals.finish]
  split
  · next hover =>
    have herr : l.err ≠ .illegalCharFound := by
      intro hillegal
      rw [hillegal] at hover
      exact absurd hover.2.2 (by decide)
    exact ⟨fun _ => h.proceeds herr, fun hfail => (by cases hfail), fun _ => h.complete herr⟩
  · exact h

theorem fromUnicodeUTF8_ended {cnv : FromConverter} {source : List UInt16} (hv : cnv.Valid)
    (hroom : 0 < targetLimit) :
    ∃ l : FromLocals, fromUnicodeUTF8 isCESU8 cnv source targetLimit = l.result ∧
      FromEnded isCESU8
        (fun more => run (encodeUnit isCESU8) cnv.fromUChar32 (source ++ more)) targetLimit l := by
  refine ⟨_, rfl, (fromExec_ended ?_).finish⟩
  rw [FromLocals.start]
  split
  · next hstored =>
    have hsurrogate : IsSurrogate cnv.fromUChar32 := hv.resolve_left hstored.1
    exact ⟨⟨rfl, by simp, Nat.zero_le _, Or.inl rfl⟩, hroom, hsurrogate,
      fun more => (Outcome.after_nil _).symm⟩
  · next hempty =>
    have hzero : cnv.fromUChar32 = 0 := by
      by_contra hne
      exact hempty ⟨hne, hroom⟩
    refine ⟨⟨hzero, by simp, Nat.zero_le _, Or.inl rfl⟩, fun more => ?_⟩
    rw [hzero]
    exact (Outcome.after_nil _).symm

theorem fromUnicodeUTF8_unchanged (cnv : FromConverter) (source : List UInt16) :
    fromUnicodeUTF8 isCESU8 cnv source 0 =
      ⟨cnv, source, [], [], if source = [] then .zeroError else .bufferOverflowError⟩ := by
  have hloop : FromLocals.loop isCESU8 0 ⟨cnv, source, [], [], 0, .zeroError⟩ =
      (.done, ⟨cnv, source, [], [], 0, .zeroError⟩) := by
    rw [FromLocals.loop]
    split
    · rfl
    · rw [if_neg (by simp)]
  have hexec : Program.exec (FromLocals.step isCESU8 0) (fromFuel source)
      (FromLocals.start 0 cnv source) = (.done, ⟨cnv, source, [], [], 0, .zeroError⟩) := by
    rw [FromLocals.start, if_neg (fun h => Nat.lt_irrefl 0 h.2), fromFuel, Program.exec,
      FromLocals.step, hloop]
    rfl
  rw [fromUnicodeUTF8, hexec, FromLocals.finish]
  by_cases hnil : source = []
  · simp [hnil, FromLocals.result]
  · simp [hnil, FromLocals.result, UErrorCode.isSuccess]

theorem fromUnicodeUTF8_keeps {cnv : FromConverter} {source : List UInt16} (hv : cnv.Valid) :
    Keeps (encodeUnit isCESU8) FromConverter.fromUChar32 FromConverter.Valid
      (fun _ => True) cnv source
      (fromUnicodeUTF8 isCESU8 cnv source targetLimit).reply := by
  rcases Nat.eq_zero_or_pos targetLimit with rfl | hroom
  · rw [fromUnicodeUTF8_unchanged]
    refine ⟨fun _ => ⟨hv, fun more => ?_⟩, fun hfail => ?_⟩
    · exact (Outcome.after_nil _).symm
    dsimp only [FromResult.reply] at hfail
    split at hfail <;> cases hfail
  · obtain ⟨l, hl, hended⟩ := @fromUnicodeUTF8_ended isCESU8 _ _ source hv hroom
    rw [hl]
    exact ⟨fun hok => hended.proceeds (of_decide_eq_false hok),
      fun hfail => ⟨trivial, hended.fails (of_decide_eq_true hfail)⟩⟩

theorem fromUnicodeUTF8_all {cnv : FromConverter} {source : List UInt16} (hv : cnv.Valid)
    (hroom : 4 * source.length < targetLimit)
    (hok : (fromUnicodeUTF8 isCESU8 cnv source targetLimit).reply.failed = false) :
    (fromUnicodeUTF8 isCESU8 cnv source targetLimit).reply.rest = [] := by
  obtain ⟨l, hl, hended⟩ := @fromUnicodeUTF8_ended isCESU8 targetLimit _ source hv (by omega)
  rw [hl] at hok ⊢
  have herr : l.err ≠ .illegalCharFound := of_decide_eq_false hok
  rcases hended.complete herr with hdone | hfull
  · exact hdone
  have hle := (hended.proceeds herr).2.length_le fun _ _ _ _ => encodeUnit_length_le
  rw [List.length_append] at hle
  omega

end Call

end Icu.UcnvU8
