import Icu.UcnvU8.Model

/-! # The variants with offsets

Each conversion function comes to its end, and so does its variant with offsets, in the same
state and with the same text.
-/

namespace Icu.UcnvU8

open Lib

section To

variable {isCESU8 : Bool} {targetLimit : Nat} {s s' : ToLabel × ToOffsetLocals}
  {t : ToLabel × ToLocals}

def ToLabel.weight : ToLabel → Nat
  | .loop => 1
  | .morebytes => 2
  | .donefornow => 0

@[simp] theorem ToLabel.weight_loop : ToLabel.loop.weight = 1 := rfl

@[simp] theorem ToLabel.weight_morebytes : ToLabel.morebytes.weight = 2 := rfl

@[simp] theorem ToLabel.weight_donefornow : ToLabel.donefornow.weight = 0 := rfl

/-- The bytes left, twice, and the label. -/
def ToLocals.measure (s : ToLabel × ToLocals) : Nat := 2 * s.2.source.length + s.1.weight

theorem ToLocals.putChar_spec (l : ToLocals) : (l.putChar isCESU8 targetLimit).1.weight ≤ 1 ∧
    (l.putChar isCESU8 targetLimit).2.source = l.source := by
  rw [ToLocals.putChar]
  dsimp only
  split_ifs <;> simp

theorem ToLocals.loop_measure (l : ToLocals) :
    measure (l.loop targetLimit) < measure (.loop, l) := by
  rw [ToLocals.loop]
  cases hs : l.source with
  | nil => simp [measure, hs]
  | cons b source =>
    dsimp only
    split_ifs
    all_goals
      simp [measure, hs]
      try omega

theorem ToLocals.morebytes_measure (l : ToLocals) :
    measure (l.morebytes isCESU8 targetLimit) < measure (.morebytes, l) := by
  have hput : ∀ l' : ToLocals, l'.source = l.source →
      measure (l'.putChar isCESU8 targetLimit) < measure (.morebytes, l) := by
    intro l' hl
    obtain ⟨hweight, hsource⟩ := @putChar_spec isCESU8 targetLimit l'
    simp only [measure, hsource, hl, ToLabel.weight_morebytes]
    omega
  rw [ToLocals.morebytes]
  split
  · cases hs : l.source with
    | nil => simp [measure, hs]
    | cons b source =>
      dsimp only
      split
      · exact hput _ hs.symm
      · simp [measure, hs]
  · exact hput l rfl

theorem ToLocals.step_measure {s s' : ToLabel × ToLocals}
    (h : ToLocals.step isCESU8 targetLimit s = some s') : measure s' < measure s := by
  obtain ⟨label, l⟩ := s
  cases label with
  | loop =>
    rw [← Option.some.inj h]
    exact loop_measure l
  | morebytes =>
    rw [← Option.some.inj h]
    exact morebytes_measure l
  | donefornow => cases h

theorem ToLocals.measure_start (cnv : ToConverter) (source : List UInt8) :
    measure (ToLocals.start targetLimit cnv source) < toFuel source := by
  rw [ToLocals.start, toFuel]
  split <;> simp [measure]

theorem ToLocals.exec_done (cnv : ToConverter) (source : List UInt8) :
    ToLocals.step isCESU8 targetLimit (Program.exec (ToLocals.step isCESU8 targetLimit)
      (toFuel source) (ToLocals.start targetLimit cnv source)) = none :=
  Program.exec_halts _ step_measure (measure_start cnv source)

/-! Without the offsets. -/

def ToOffsetLocals.plain (s : ToLabel × ToOffsetLocals) :
    ToLabel × ToLocals := (s.1, s.2.toToLocals)

/-- The variant with offsets goes back to the loop when the target overflows. -/
def ToOffsetLocals.Related (targetLimit : Nat) (s : ToLabel × ToOffsetLocals)
    (t : ToLabel × ToLocals) : Prop :=
  t = plain s ∨ s.1 = .loop ∧ targetLimit ≤ s.2.target.length ∧ t = (.donefornow, s.2.toToLocals)

theorem ToOffsetLocals.putChar_related (l : ToOffsetLocals) :
    Related targetLimit (l.putChar isCESU8 targetLimit)
      (l.toToLocals.putChar isCESU8 targetLimit) := by
  rw [ToOffsetLocals.putChar, ToLocals.putChar]
  dsimp only
  split
  · split
    · exact Or.inl rfl
    split
    · exact Or.inl rfl
    · next hfull => exact Or.inr ⟨rfl, Nat.le_of_not_lt hfull, rfl⟩
  · exact Or.inl rfl

theorem ToOffsetLocals.loop_plain (l : ToOffsetLocals) :
    l.toToLocals.loop targetLimit = plain (l.loop targetLimit) := by
  rw [ToOffsetLocals.loop, ToLocals.loop]
  split
  · rfl
  dsimp only
  split
  · split
    · rfl
    · rfl
  · rfl

theorem ToOffsetLocals.morebytes_related (l : ToOffsetLocals) :
    Related targetLimit (l.morebytes isCESU8 targetLimit)
      (l.toToLocals.morebytes isCESU8 targetLimit) := by
  rw [ToOffsetLocals.morebytes, ToLocals.morebytes]
  split
  · split
    · dsimp only
      split
      · exact putChar_related _
      · exact Or.inl rfl
    · exact Or.inl rfl
  · exact putChar_related l

theorem ToOffsetLocals.loop_full {l : ToOffsetLocals} (h : targetLimit ≤ l.target.length) :
    l.loop targetLimit = (.donefornow, l) := by
  rw [ToOffsetLocals.loop]
  split
  · rfl
  · rw [if_neg (Nat.not_lt.mpr h)]

theorem ToOffsetLocals.step_related
    (h : Related targetLimit s t) (hs : ToOffsetLocals.step isCESU8 targetLimit s = some s') :
    ∃ k, Related targetLimit s' (Program.exec (ToLocals.step isCESU8 targetLimit) k t) := by
  obtain ⟨label, l⟩ := s
  rcases h with rfl | ⟨hlabel, hfull, rfl⟩
  · cases label with
    | loop =>
      rw [← Option.some.inj hs]
      exact ⟨1, Or.inl (loop_plain l)⟩
    | morebytes =>
      rw [← Option.some.inj hs]
      exact ⟨1, morebytes_related l⟩
    | donefornow => cases hs
  · dsimp only at hlabel
    subst hlabel
    rw [← Option.some.inj hs, loop_full hfull]
    exact ⟨0, Or.inl rfl⟩

theorem ToOffsetLocals.step_related_none
    (h : Related targetLimit s t) (hs : ToOffsetLocals.step isCESU8 targetLimit s = none) :
    ToLocals.step isCESU8 targetLimit t = none := by
  obtain ⟨label, l⟩ := s
  cases label with
  | loop => cases hs
  | morebytes => cases hs
  | donefornow =>
    rcases h with rfl | ⟨hlabel, -, -⟩
    · rfl
    · cases hlabel

theorem ToOffsetLocals.step_measure (h : ToOffsetLocals.step isCESU8 targetLimit s = some s') :
    ToLocals.measure (plain s') < ToLocals.measure (plain s) := by
  obtain ⟨label, l⟩ := s
  cases label with
  | loop =>
    rw [← Option.some.inj h, ← loop_plain]
    exact ToLocals.loop_measure _
  | morebytes =>
    rw [← Option.some.inj h]
    have hless := @ToLocals.morebytes_measure isCESU8 targetLimit l.toToLocals
    rcases @morebytes_related isCESU8 targetLimit l with heq | ⟨hlabel, -, heq⟩
    · rwa [← heq]
    rw [heq] at hless
    simp only [ToLocals.measure, plain, hlabel, ToLabel.weight_loop, ToLabel.weight_morebytes,
      ToLabel.weight_donefornow] at hless ⊢
    omega
  | donefornow => cases h

theorem ToOffsetLocals.start_plain (cnv : ToConverter) (source : List UInt8) :
    ToLocals.start targetLimit cnv source =
      plain (ToOffsetLocals.start targetLimit cnv source) := by
  rw [ToLocals.start, ToOffsetLocals.start]
  split
  · rfl
  · rfl

theorem ToOffsetLocals.exec_done (cnv : ToConverter) (source : List UInt8) :
    ToOffsetLocals.step isCESU8 targetLimit (Program.exec (ToOffsetLocals.step isCESU8 targetLimit)
      (toFuel source) (ToOffsetLocals.start targetLimit cnv source)) = none := by
  refine @Program.exec_halts _ _ (fun s => ToLocals.measure (plain s)) step_measure _ _ ?_
  rw [← start_plain]
  exact ToLocals.measure_start cnv source

theorem toUnicodeUTF8OffsetsLogic_result (isCESU8 : Bool) (cnv : ToConverter) (source : List UInt8)
    (targetLimit : Nat) : (toUnicodeUTF8OffsetsLogic isCESU8 cnv source targetLimit).result =
      toUnicodeUTF8 isCESU8 cnv source targetLimit := by
  have hend : ToOffsetLocals.Related targetLimit
      (Program.exec (ToOffsetLocals.step isCESU8 targetLimit) (toFuel source)
        (ToOffsetLocals.start targetLimit cnv source))
      (Program.exec (ToLocals.step isCESU8 targetLimit) (toFuel source)
        (ToLocals.start targetLimit cnv source)) :=
    Program.exec_related (R := ToOffsetLocals.Related targetLimit) ToOffsetLocals.step_related
      ToOffsetLocals.step_related_none (Or.inl (ToOffsetLocals.start_plain cnv source))
      (ToOffsetLocals.exec_done cnv source) (ToLocals.exec_done cnv source)
  rw [toUnicodeUTF8OffsetsLogic, toUnicodeUTF8]
  generalize Program.exec (ToOffsetLocals.step isCESU8 targetLimit) (toFuel source)
    (ToOffsetLocals.start targetLimit cnv source) = s at hend
  have hsame : (Program.exec (ToLocals.step isCESU8 targetLimit) (toFuel source)
      (ToLocals.start targetLimit cnv source)).2 = s.2.toToLocals := by
    rcases hend with heq | ⟨-, -, heq⟩
    · rw [heq]
      rfl
    · rw [heq]
  rw [hsame]
  rw [ToOffsetLocals.finish, ToLocals.finish]
  split
  · rfl
  · rfl

end To

section From

variable {isCESU8 : Bool} {targetLimit : Nat}

def FromOffsetLocals.plain (s : FromLabel × FromOffsetLocals) : FromLabel × FromLocals :=
  (s.1, s.2.toFromLocals)

theorem FromOffsetLocals.writeSlowly_plain (bytes : List UInt8) (l : FromOffsetLocals) :
    l.toFromLocals.writeSlowly targetLimit bytes =
    (l.writeSlowly targetLimit bytes).toFromLocals := by
  induction bytes generalizing l with
  | nil => rfl
  | cons b bytes ih =>
    rw [FromLocals.writeSlowly, FromOffsetLocals.writeSlowly]
    split
    · exact ih { l with target := l.target ++ [b], offsets := l.offsets ++ [l.offsetNum] }
    · exact ih { l with charErrorBuffer := l.charErrorBuffer ++ [b], err := .bufferOverflowError }

theorem FromOffsetLocals.putBytes_plain (l : FromOffsetLocals) :
    l.toFromLocals.putBytes targetLimit = plain (l.putBytes targetLimit) := by
  rw [FromLocals.putBytes, FromOffsetLocals.putBytes]
  split
  · rfl
  rw [writeSlowly_plain]
  rfl

theorem FromOffsetLocals.lowsurrogate_plain (l : FromOffsetLocals) :
    l.toFromLocals.lowsurrogate targetLimit = plain (l.lowsurrogate targetLimit) := by
  rw [FromLocals.lowsurrogate, FromOffsetLocals.lowsurrogate]
  split
  · split
    · exact putBytes_plain { l with source := _, ch := _, nextSourceIndex := l.nextSourceIndex + 1 }
    · rfl
  · rfl

theorem FromOffsetLocals.loop_plain (l : FromOffsetLocals) :
    l.toFromLocals.loop isCESU8 targetLimit = plain (l.loop isCESU8 targetLimit) := by
  rw [FromLocals.loop, FromOffsetLocals.loop]
  split
  · rfl
  dsimp only
  split
  · split
    · rfl
    split
    · split
      · rfl
      · rfl
    · split
      · rfl
      · exact putBytes_plain { l with source := _, ch := _, nextSourceIndex := l.offsetNum + 1 }
  · rfl

theorem FromOffsetLocals.step_plain (s : FromLabel × FromOffsetLocals) :
    FromLocals.step isCESU8 targetLimit (plain s) =
      (FromOffsetLocals.step isCESU8 targetLimit s).map plain := by
  obtain ⟨label, l⟩ := s
  cases label with
  | loop => exact congrArg some (loop_plain l)
  | lowsurrogate => exact congrArg some (lowsurrogate_plain l)
  | done => rfl

theorem FromOffsetLocals.start_plain (cnv : FromConverter) (source : List UInt16) :
    FromLocals.start targetLimit cnv source =
      plain (FromOffsetLocals.start targetLimit cnv source) := by
  rw [FromLocals.start, FromOffsetLocals.start]
  split
  · rfl
  · rfl

theorem fromUnicodeUTF8OffsetsLogic_result (isCESU8 : Bool) (cnv : FromConverter)
    (source : List UInt16) (targetLimit : Nat) :
    (fromUnicodeUTF8OffsetsLogic isCESU8 cnv source targetLimit).result =
      fromUnicodeUTF8 isCESU8 cnv source targetLimit := by
  rw [fromUnicodeUTF8OffsetsLogic, fromUnicodeUTF8, FromOffsetLocals.start_plain,
    Program.exec_map FromOffsetLocals.step_plain]
  generalize Program.exec (FromOffsetLocals.step isCESU8 targetLimit) (fromFuel source)
    (FromOffsetLocals.start targetLimit cnv source) = s
  dsimp only [FromOffsetLocals.plain]
  rw [FromOffsetLocals.finish, FromLocals.finish]
  split
  · rfl
  · rfl

end From

end Icu.UcnvU8
