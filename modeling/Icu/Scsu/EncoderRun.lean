import Icu.Scsu.Encoder

/-! # A call of the SCSU encoder

The decoder, having read the bytes so far, is in the state of the encoder, and it has written the
units that the encoder has read, but for a lead surrogate that waits for its trail unit. This holds
at every label, with any choice that the encoder makes for a character.
-/

namespace Icu.Scsu

open Utf16 Lib Lib.Transducer

variable {scsu : Encoder} {bytes : List UInt8} {u : UInt16} {source : List UInt16}
  {s s' : FromLabel × FromLocals}

def Encoder.decoder (scsu : Encoder) (quoteWindow : Window) : Decoder :=
  ⟨scsu.fromUDynamicOffsets, scsu.fromUIsSingleByteMode, .readCommand, quoteWindow,
    scsu.fromUDynamicWindow, 0, []⟩

/-- The bytes take the decoder from one state of the encoder to another, and give these units. -/
def Mirrors (scsu : Encoder) (bytes : List UInt8) (units : List UInt16) (scsu' : Encoder) : Prop :=
  ∀ quoteWindow, ∃ quoteWindow',
    Decodes (scsu.decoder quoteWindow) bytes units (scsu'.decoder quoteWindow')

theorem Mirrors.trans {scsu' scsu'' : Encoder} {bytes' : List UInt8}
    {units units' : List UInt16} (h : Mirrors scsu bytes units scsu')
    (h' : Mirrors scsu' bytes' units' scsu'') :
    Mirrors scsu (bytes ++ bytes') (units ++ units') scsu'' := by
  intro q
  obtain ⟨q', hd⟩ := h q
  obtain ⟨q'', hd'⟩ := h' q'
  exact ⟨q'', hd.trans hd'⟩

def waiting (c : Nat) : List UInt16 := if c = 0 then [] else [UInt16.ofNat c]

section Call

variable {start before : Encoder} {input more units : List UInt16} {room : Nat} {l l' : FromLocals}
  {trail : UInt16}

def Covers (start : Encoder) (input : List UInt16) (bytes : List UInt8) (now : Encoder)
    (rest : List UInt16) : Prop :=
  ∃ out, Mirrors start bytes out now ∧ out ++ rest = waiting start.fromUChar32 ++ input

/-- A call between two characters, or with a lead surrogate. -/
structure Writing (start : Encoder) (input more : List UInt16) (room : Nat) (l : FromLocals) :
    Prop where
  err : l.err = .zeroError
  buffer : l.charErrorBuffer = []
  valid : l.cnv.Valid
  waits : l.c = 0 ∨ 0xd800 ≤ l.c ∧ l.c ≤ 0xdbff
  covers : Covers start input l.target l.cnv (waiting l.c ++ l.source)
  wellFormed : WellFormed (waiting l.c ++ l.source ++ more)
  capacity : l.targetCapacity + l.target.length = room
  short : l.target.length + 3 * (waiting l.c ++ l.source).length ≤
    3 * (waiting start.fromUChar32 ++ input).length

/-- A character has been read, and its bytes are not written yet. -/
structure Pending (start : Encoder) (input more : List UInt16) (room : Nat) (before : Encoder)
    (units : List UInt16) (l : FromLocals) : Prop where
  err : l.err = .zeroError
  buffer : l.charErrorBuffer = []
  valid : l.cnv.Valid
  covers : Covers start input l.target before (units ++ l.source)
  wellFormed : WellFormed (l.source ++ more)
  capacity : l.targetCapacity + l.target.length = room

structure FromEnded (start : Encoder) (input more : List UInt16) (room : Nat) (l : FromLocals) :
    Prop where
  err : l.err = .zeroError ∨ l.err = .bufferOverflowError
  valid : l.cnv.Valid
  waits : l.c = 0 ∨ 0xd800 ≤ l.c ∧ l.c ≤ 0xdbff
  covers : Covers start input (l.target ++ l.charErrorBuffer) l.cnv (waiting l.c ++ l.source)
  wellFormed : WellFormed (waiting l.c ++ l.source ++ more)
  stops : l.source = [] ∨ room ≤ l.target.length
  short : l.target.length + 3 * (waiting l.c ++ l.source).length ≤
    3 * (waiting start.fromUChar32 ++ input).length

def FromInv (start : Encoder) (input more : List UInt16) (room : Nat) :
    FromLabel × FromLocals → Prop
  | (.loop, l) => Writing start input more room l
  | (.singleByteMode, l) => Writing start input more room l ∧ l.cnv.fromUIsSingleByteMode = true ∧
      (l.c = 0 ∨ l.targetCapacity = 0)
  | (.getTrailSingle, l) => Writing start input more room l ∧ l.cnv.fromUIsSingleByteMode = true ∧
      l.c ≠ 0 ∧ 0 < l.targetCapacity
  | (.unicodeByteMode, l) => Writing start input more room l ∧ l.cnv.fromUIsSingleByteMode = false ∧
      (l.c = 0 ∨ l.targetCapacity = 0)
  | (.getTrailUnicode, l) => Writing start input more room l ∧ l.cnv.fromUIsSingleByteMode = false ∧
      l.c ≠ 0 ∧ 0 < l.targetCapacity
  | (.endloop, l) => FromEnded start input more room l

section

variable (h : Pending start input more room before units l)
include h

theorem Pending.covers_bytes
    (hm : Mirrors before bytes units l.cnv) :
    Covers start input (l.target ++ bytes) l.cnv l.source := by
  obtain ⟨out, hout, heq⟩ := h.covers
  exact ⟨out ++ units, hout.trans hm, by rw [List.append_assoc, heq]⟩

theorem Pending.covers_part {after : Encoder} (hm : Mirrors before bytes [] after) :
    Covers start input (l.target ++ bytes) after (units ++ l.source) := by
  obtain ⟨out, hout, heq⟩ := h.covers
  have hpart := hout.trans hm
  rw [List.append_nil] at hpart
  exact ⟨out, hpart, heq⟩

theorem Pending.writing
    (hm : Mirrors before bytes units l.cnv) (hroom : bytes.length ≤ l.targetCapacity)
    (hshort : l.target.length + bytes.length + 3 * l.source.length ≤
      3 * (waiting start.fromUChar32 ++ input).length) :
    Writing start input more room { l with target := l.target ++ bytes,
                                           targetCapacity := l.targetCapacity - bytes.length, c :=
                                             0 } where
  err := h.err
  buffer := h.buffer
  valid := h.valid
  waits := Or.inl rfl
  covers := h.covers_bytes hm
  wellFormed := h.wellFormed
  capacity := by
    have := h.capacity
    dsimp only
    rw [List.length_append]
    omega
  short := by
    rw [List.length_append]
    exact hshort

theorem Pending.outputBytes {c length : Nat}
    (hm : Mirrors before (packedBytes length c) units l.cnv) (hl : length ≤ 4)
    (hshort : l.target.length + length + 3 * l.source.length ≤
      3 * (waiting start.fromUChar32 ++ input).length) :
    FromInv start input more room (l.outputBytes c length) := by
  have hlength := @length_packedBytes length c hl
  rw [FromLocals.outputBytes]
  by_cases hfits : length ≤ l.targetCapacity
  · rw [if_pos hfits]
    have hw := h.writing hm (by rw [hlength]; exact hfits) (by rw [hlength]; exact hshort)
    rw [hlength] at hw
    exact hw
  rw [if_neg hfits]
  have hsplit := @packedBytes_split length c l.targetCapacity (by omega) hl
  have hpart := @length_packedBytes l.targetCapacity
    (c >>> (8 * (length - l.targetCapacity))) (by omega)
  have hcap := h.capacity
  refine ⟨Or.inr rfl, h.valid, Or.inl rfl, ?_, h.wellFormed, Or.inr ?_, ?_⟩
  · have hcovers := h.covers_bytes hm
    rw [← hsplit, ← List.append_assoc] at hcovers
    exact hcovers
  · dsimp only [FromLocals.next]
    rw [List.length_append, hpart]
    omega
  · dsimp only [FromLocals.next]
    rw [List.length_append, hpart]
    change _ + 3 * l.source.length ≤ _
    omega

theorem Pending.putByte {b : Nat}
    (hm : Mirrors before [UInt8.ofNat b] units l.cnv) (hroom : 0 < l.targetCapacity)
    (hmode : l.cnv.fromUIsSingleByteMode = true)
    (hshort : l.target.length + 1 + 3 * l.source.length ≤
      3 * (waiting start.fromUChar32 ++ input).length) :
    FromInv start input more room (.singleByteMode, (l.putByte b).next) :=
  ⟨h.writing hm hroom hshort, hmode, Or.inl rfl⟩

end

section Windows

variable {c : Nat}

theorem decoder_single {scsu : Encoder} (h : scsu.fromUIsSingleByteMode = true)
    (quoteWindow : Window) :
    scsu.decoder quoteWindow =
      single scsu.fromUDynamicOffsets scsu.fromUDynamicWindow quoteWindow := by
  rw [Encoder.decoder, h]
  rfl

theorem decoder_unicode (h : scsu.fromUIsSingleByteMode = false) (quoteWindow : Window) :
    scsu.decoder quoteWindow =
      unicode scsu.fromUDynamicOffsets scsu.fromUDynamicWindow quoteWindow := by
  rw [Encoder.decoder, h]
  rfl

theorem sub32_window (hc : c < 0x110000) {offset : Nat} (hin : InWindow offset c) :
    sub32 c offset ≤ 0x7f ∧ offset + sub32 c offset = c := by
  rw [InWindow] at hin
  rw [sub32_eq hin.1 (by omega)]
  omega

theorem windowByte_lt (hc : c < 0x110000) (hin : InWindow l.currentOffset c) :
    l.windowByte c < 0x100 := by
  have hdelta := (sub32_window hc hin).1
  exact @Nat.or_lt_two_pow _ _ 8 (by omega) (by decide)

theorem mirrors_windowByte (hmode : l.cnv.fromUIsSingleByteMode = true) (hc : c < 0x110000)
    (hin : InWindow l.currentOffset c) :
    Mirrors l.cnv [UInt8.ofNat (l.windowByte c)] (unitsOf c) l.cnv := by
  intro q
  obtain ⟨hle, heq⟩ := sub32_window hc hin
  have h := @decodes_window l.cnv.fromUDynamicOffsets l.cnv.fromUDynamicWindow q _ hle
  rw [FromLocals.currentOffset] at heq
  rw [FromLocals.currentOffset, heq] at h
  refine ⟨q, ?_⟩
  rw [decoder_single hmode]
  exact h

theorem mirrors_command {tag : List UInt8}
    (htag : ∀ q, Decodes (before.decoder q) tag [] (l.cnv.decoder q))
    (hmode : l.cnv.fromUIsSingleByteMode = true) (hc : c < 0x110000)
    (hin : InWindow l.currentOffset c) :
    Mirrors before (tag ++ [UInt8.ofNat (l.windowByte c)]) (unitsOf c) l.cnv := by
  have hcommand : Mirrors before tag [] l.cnv := fun q => ⟨q, htag q⟩
  exact hcommand.trans (mirrors_windowByte hmode hc hin)

variable {tag code : Nat} (h : Pending start input more room before (unitsOf c) l)
  (hmode : l.cnv.fromUIsSingleByteMode = true) (hc : c < 0x110000)
    (hin : InWindow l.currentOffset c)
include h hmode hc hin

theorem Pending.outputChange
    (htag : ∀ q, Decodes (before.decoder q) [UInt8.ofNat (tag + l.cnv.fromUDynamicWindow)] []
      (l.cnv.decoder q))
    (hshort : l.target.length + 2 + 3 * l.source.length ≤
      3 * (waiting start.fromUChar32 ++ input).length) :
    FromInv start input more room (l.outputChange tag c) := by
  refine h.outputBytes ?_ (by decide) hshort
  rw [packedBytes_two (windowByte_lt hc hin)]
  exact mirrors_command htag hmode hc hin

theorem Pending.outputDefine (hcode : code < 0x100) (htag : ∀ q, Decodes (before.decoder q)
      [UInt8.ofNat (tag + l.cnv.fromUDynamicWindow), UInt8.ofNat code] [] (l.cnv.decoder q))
    (hshort : l.target.length + 3 + 3 * l.source.length ≤
      3 * (waiting start.fromUChar32 ++ input).length) :
    FromInv start input more room (l.outputDefine tag code c) := by
  refine h.outputBytes ?_ (by decide) hshort
  rw [packedBytes_three hcode (windowByte_lt hc hin)]
  exact mirrors_command htag hmode hc hin

theorem Pending.outputDefineExtended (hcode : code - 0x200 < 0x2000)
    (htag : ∀ q, Decodes (before.decoder q)
      [UInt8.ofNat tag, UInt8.ofNat (l.cnv.fromUDynamicWindow * 0x20 + (code - 0x200) / 0x100),
        UInt8.ofNat (code - 0x200)] [] (l.cnv.decoder q))
    (hshort : l.target.length + 4 + 3 * l.source.length ≤
      3 * (waiting start.fromUChar32 ++ input).length) :
    FromInv start input more room (l.outputDefineExtended tag code c) := by
  refine h.outputBytes ?_ (by decide) hshort
  rw [packedBytes_extended l.cnv.fromUDynamicWindow.isLt hcode (windowByte_lt hc hin)]
  exact mirrors_command htag hmode hc hin

end Windows

/-! ## Characters -/

section

variable (h : Writing start input more room l)
include h

/-- A character that is not a surrogate. -/
theorem Writing.pending_unit (hzero : l.c = 0)
    (hsource : l.source = u :: source) (hu : ¬ (0xd800 ≤ u.toNat ∧ u.toNat ≤ 0xdfff)) (c : Nat) :
    Pending start input more room l.cnv [u] { l with source, c } ∧
      l.target.length + 3 + 3 * source.length ≤
        3 * (waiting start.fromUChar32 ++ input).length := by
  have hwait : waiting l.c = [] := if_pos hzero
  have hcovers := h.covers
  have hformed := h.wellFormed
  have hshort := h.short
  rw [hwait, List.nil_append, hsource] at hcovers hformed hshort
  refine ⟨⟨h.err, h.buffer, h.valid, hcovers, ?_, h.capacity⟩, ?_⟩
  · rcases hformed.cons_cases with ⟨-, hrest⟩ | ⟨hlead, -⟩
    · exact hrest
    · omega
  · rw [List.length_cons] at hshort
    omega

theorem Writing.lead (hzero : l.c = 0)
    (hsource : l.source = u :: source) (hu : 0xd800 ≤ u.toNat ∧ u.toNat ≤ 0xdfff) :
    u.toNat ≤ 0xdbff ∧ Writing start input more room { l with source, c := u.toNat } := by
  have hwait : waiting l.c = [] := if_pos hzero
  have hwait' : waiting u.toNat = [u] := by
    rw [waiting, if_neg (by omega), UInt16.ofNat_toNat]
  have hcovers := h.covers
  have hformed := h.wellFormed
  have hshort := h.short
  rw [hwait, List.nil_append, hsource] at hcovers hformed hshort
  have hle : u.toNat ≤ 0xdbff := by
    rcases hformed.cons_cases with ⟨hno, -⟩ | ⟨hlead, -⟩
    · exact absurd hu hno
    · exact hlead.2
  refine ⟨hle, h.err, h.buffer, h.valid, Or.inr ⟨hu.1, hle⟩, ?_, ?_, h.capacity, ?_⟩
  · rw [hwait']
    exact hcovers
  · rw [hwait']
    exact hformed
  · rw [hwait']
    exact hshort

theorem Writing.pending_pair (hlead : l.c ≠ 0)
    (hsource : l.source = trail :: source) : u16IsTrail trail.toNat = true ∧
      Pending start input more room l.cnv (unitsOf (u16GetSupplementary l.c trail.toNat))
      { l with source } ∧
      0x10000 ≤ u16GetSupplementary l.c trail.toNat ∧
        u16GetSupplementary l.c trail.toNat ≤ 0x10ffff ∧
      unitsOf (u16GetSupplementary l.c trail.toNat) = [UInt16.ofNat l.c, trail] ∧
      l.target.length + 6 + 3 * source.length ≤
        3 * (waiting start.fromUChar32 ++ input).length := by
  have hrange : 0xd800 ≤ l.c ∧ l.c ≤ 0xdbff := h.waits.resolve_left hlead
  have hwait : waiting l.c = [UInt16.ofNat l.c] := if_neg hlead
  have hlc : (UInt16.ofNat l.c).toNat = l.c := toNat_ofNat_bmp (by omega)
  have hcovers := h.covers
  have hformed := h.wellFormed
  have hshort := h.short
  rw [hwait, hsource, List.singleton_append] at hcovers hformed hshort
  rw [List.cons_append, List.cons_append] at hformed
  rcases hformed.cons_cases with ⟨hno, -⟩ | ⟨-, trail', s', hs', htrail, hrest⟩
  · rw [hlc] at hno
    omega
  rw [List.cons.injEq] at hs'
  obtain ⟨rfl, rfl⟩ := hs'
  have hlt := trail.toNat_lt
  have hist : u16IsTrail trail.toNat = true := (u16IsTrail_iff (by omega)).mpr htrail
  have hpair := @unitsOf_pair (UInt16.ofNat l.c) trail
    (by rw [hlc]; exact (u16IsLead_iff (by omega)).mpr hrange) hist
  have hbounds := u16GetSupplementary_bounds hrange htrail
  rw [hlc] at hpair
  refine ⟨hist, ⟨h.err, h.buffer, h.valid, ?_, hrest, h.capacity⟩, hbounds.1, hbounds.2, hpair, ?_⟩
  · rw [hpair]
    exact hcovers
  · rw [List.length_cons, List.length_cons] at hshort
    omega

end

theorem Pending.of_valid (h : Pending start input more room before units l) {cnv : Encoder}
    (hv : cnv.Valid) : Pending start input more room before units { l with cnv } :=
  ⟨h.err, h.buffer, hv, h.covers, h.wellFormed, h.capacity⟩

section Branches

variable {c tag code offset : Nat} {window : Window} {lead : UInt16}

section

variable (h : Pending start input more room before (unitsOf c) l)
include h

theorem Pending.change (hmode : l.cnv.fromUIsSingleByteMode = true) (hc : c < 0x110000)
    (hwindow : getWindow l.cnv.fromUDynamicOffsets c = some window)
    (htag : ∀ q, Decodes (before.decoder q) [UInt8.ofNat (tag + window)] []
      (single l.cnv.fromUDynamicOffsets window q))
    (hshort : l.target.length + 2 + 3 * l.source.length ≤
      3 * (waiting start.fromUChar32 ++ input).length) :
    FromInv start input more room ((l.changeWindow window).outputChange tag c) := by
  have hp := h.of_valid (h.valid.changeWindow window)
  have hin := getWindow_some (fun window => (h.valid.offsets window).lt) hc hwindow
  refine hp.outputChange hmode hc hin (fun q => ?_) hshort
  rw [@decoder_single (l.cnv.changeWindow window) hmode]
  exact htag q

theorem Pending.define (hmode : l.cnv.fromUIsSingleByteMode = true) (hc : c ≤ 0xffff)
    (hoffset : getDynamicOffset c = some (code, offset))
    (htag : ∀ (window : Window) q, Defines code offset →
      Decodes (before.decoder q) [UInt8.ofNat (tag + window), UInt8.ofNat code] []
        (single (setAt l.cnv.fromUDynamicOffsets window offset) window q))
    (hshort : l.target.length + 3 + 3 * l.source.length ≤
      3 * (waiting start.fromUChar32 ++ input).length) :
    FromInv start input more room ((l.defineWindow offset).outputDefine tag code c) := by
  obtain ⟨hisOffset, hin⟩ := getDynamicOffset_isOffset (by omega) hoffset
  have hdefines := getDynamicOffset_defines hc hoffset
  have hp := h.of_valid (h.valid.defineWindow hisOffset)
  have hcurrent : InWindow (l.defineWindow offset).currentOffset c := by
    rw [FromLocals.currentOffset, FromLocals.defineWindow, defineWindow_currentOffset]
    exact hin
  refine hp.outputDefine hmode (by omega) hcurrent hdefines.lt (fun q => ?_) hshort
  rw [@decoder_single (l.cnv.defineWindow offset) hmode]
  exact htag _ q hdefines

theorem Pending.defineExtended
    (hmode : l.cnv.fromUIsSingleByteMode = true) (h0 : 0x10000 ≤ c) (hc : c ≤ 0x10ffff)
    (hoffset : getDynamicOffset c = some (code, offset))
    (htag : ∀ (window : Window) q, code - 0x200 < 0x2000 → Decodes (before.decoder q)
      [UInt8.ofNat tag, UInt8.ofNat (window * 0x20 + (code - 0x200) / 0x100),
      UInt8.ofNat (code - 0x200)] []
      (single (setAt l.cnv.fromUDynamicOffsets window (0x10000 + (code - 0x200) * 0x80)) window q))
    (hshort : l.target.length + 4 + 3 * l.source.length ≤
      3 * (waiting start.fromUChar32 ++ input).length) :
    FromInv start input more room ((l.defineWindow offset).outputDefineExtended tag code c) := by
  obtain ⟨hisOffset, hin⟩ := getDynamicOffset_isOffset (by omega) hoffset
  obtain ⟨hcode, heq⟩ := getDynamicOffset_extended h0 (by omega) hoffset
  have hp := h.of_valid (h.valid.defineWindow hisOffset)
  have hcurrent : InWindow (l.defineWindow offset).currentOffset c := by
    rw [FromLocals.currentOffset, FromLocals.defineWindow, defineWindow_currentOffset]
    exact hin
  have hlt : code - 0x200 < 0x2000 := by omega
  have hsame : 0x10000 + (code - 0x200) * 0x80 = offset := by omega
  refine hp.outputDefineExtended hmode (by omega) hcurrent hlt (fun q => ?_) hshort
  have h' := htag l.cnv.getNextDynamicWindow.1 q hlt
  rw [hsame] at h'
  rw [@decoder_single (l.cnv.defineWindow offset) hmode]
  exact h'

end

theorem Encoder.Valid.setMode (h : scsu.Valid) (isSingleByteMode : Bool) :
    { scsu with fromUIsSingleByteMode := isSingleByteMode }.Valid := ⟨h.usesAll, h.offsets⟩

theorem mirrors_quoteUnit (hmode : scsu.fromUIsSingleByteMode = true) :
    Mirrors scsu (packedBytes 3 (u.toNat ||| squ <<< 16)) [u] scsu := by
  intro q
  have h := @decodes_quoteUnit scsu.fromUDynamicOffsets scsu.fromUDynamicWindow q u.toNat u.toNat_lt
  rw [UInt16.ofNat_toNat] at h
  refine ⟨q, ?_⟩
  rw [packedBytes_tag u.toNat_lt, decoder_single hmode]
  exact h

theorem mirrors_quoteStatic {u : UInt16} {scsu : Encoder}
    (hmode : scsu.fromUIsSingleByteMode = true)
    {b : Nat} (hb : b < 0x80) (hu : staticOffsets.get window + b = u.toNat) :
    Mirrors scsu (packedBytes 2 ((sq0 + window) <<< 8 ||| b)) [u] scsu := by
  intro q
  have h := @decodes_quoteStatic scsu.fromUDynamicOffsets scsu.fromUDynamicWindow q b window hb
  rw [hu, UInt16.ofNat_toNat] at h
  refine ⟨window, ?_⟩
  rw [packedBytes_two (by omega), decoder_single hmode, decoder_single hmode]
  exact h

theorem mirrors_quoteDynamic (hmode : scsu.fromUIsSingleByteMode = true)
    (hc : c < 0x110000) (hin : InWindow (scsu.fromUDynamicOffsets.get window) c) :
    Mirrors scsu (packedBytes 2
      ((sq0 + window) <<< 8 ||| sub32 c (scsu.fromUDynamicOffsets.get window) ||| 0x80))
        (unitsOf c) scsu := by
  intro q
  obtain ⟨hle, heq⟩ := sub32_window hc hin
  have h := @decodes_quoteDynamic scsu.fromUDynamicOffsets scsu.fromUDynamicWindow q window _ hle
  have hlt : sub32 c (scsu.fromUDynamicOffsets.get window) ||| 0x80 < 0x100 :=
    @Nat.or_lt_two_pow _ _ 8 (by omega) (by decide)
  rw [heq] at h
  refine ⟨window, ?_⟩
  rw [Nat.or_assoc, packedBytes_two hlt, decoder_single hmode, decoder_single hmode]
  exact h

/-- Three bytes with a unit that is not in a window, and a change to Unicode mode. -/
theorem mirrors_toUnicode (hmode : scsu.fromUIsSingleByteMode = true) (hu : u.toNat < 0xe000) :
    Mirrors scsu (packedBytes 3 (u.toNat ||| scu <<< 16)) [u]
      { scsu with fromUIsSingleByteMode := false } := by
  intro q
  have h := @decodes_unit scsu.fromUDynamicOffsets scsu.fromUDynamicWindow q u.toNat (Or.inl hu)
    u.toNat_lt
  rw [UInt16.ofNat_toNat] at h
  rw [packedBytes_tag u.toNat_lt, decoder_single hmode]
  exact ⟨q, decodes_toUnicode.trans h⟩

theorem compressBmp_inv (h : Pending start input more room l.cnv [u] l)
    (hmode : l.cnv.fromUIsSingleByteMode = true)
    (hshort : l.target.length + 3 + 3 * l.source.length ≤
      3 * (waiting start.fromUChar32 ++ input).length) :
    FromInv start input more room (l.compressBmp u.toNat) := by
  have hlt := u.toNat_lt
  have hunits : [u] = unitsOf u.toNat := (unitsOf_toNat u).symm
  have hp : Pending start input more room l.cnv (unitsOf u.toNat) l := hunits ▸ h
  rw [FromLocals.compressBmp]
  split
  · next window hwindow =>
    have hin := getWindow_some (fun window => (h.valid.offsets window).lt) (by omega) hwindow
    dsimp only
    split
    · refine hp.change hmode (by omega) hwindow (fun q => ?_) (by omega)
      rw [decoder_single hmode]
      exact decodes_change window
    · exact hp.outputBytes (mirrors_quoteDynamic hmode (by omega) hin) (by decide) (by omega)
  split
  · next window hwindow =>
    have hstatic : ∀ window, staticOffsets.get window < 0x110000 := by decide
    have hin := getWindow_some hstatic (by omega) hwindow
    obtain ⟨hle, heq⟩ := @sub32_window u.toNat (by omega) _ hin
    exact h.outputBytes (mirrors_quoteStatic hmode (by omega) heq) (by decide) (by omega)
  split
  · next code offset hoffset =>
    refine hp.define hmode (by omega) hoffset (fun window q hdefines => ?_) hshort
    rw [decoder_single hmode]
    exact decodes_define window hdefines
  split
  · next hideograph =>
    have hrange : sub32 u.toNat 0x3400 < 0xd800 - 0x3400 := of_decide_eq_true hideograph.1
    rw [sub32_lt_iff (by omega) (by omega) (by omega)] at hrange
    have hp' := h.of_valid (h.valid.setMode false)
    exact hp'.outputBytes (mirrors_toUnicode hmode (by omega)) (by decide) hshort
  · exact h.outputBytes (mirrors_quoteUnit hmode) (by decide) hshort

theorem Writing.ended (h : Writing start input more room l)
    (hstop : l.source = [] ∨ l.targetCapacity = 0) {err : UErrorCode}
    (herr : err = .zeroError ∨ err = .bufferOverflowError) :
    FromEnded start input more room { l with err } := by
  refine ⟨herr, h.valid, h.waits, ?_, h.wellFormed, ?_, h.short⟩
  · dsimp only
    rw [h.buffer, List.append_nil]
    exact h.covers
  rcases hstop with hstop | hstop
  · exact Or.inl hstop
  have := h.capacity
  exact Or.inr (by dsimp only; omega)

theorem isSurrogateLead_of_lead (h : 0xd800 ≤ u.toNat ∧ u.toNat ≤ 0xdbff) :
    u16IsSurrogateLead u.toNat = true := by
  have hbit : u.toNat.testBit 10 = false := by
    rw [Nat.testBit_eq_decide_div_mod_eq, decide_eq_false_iff_not]
    omega
  rw [u16IsSurrogateLead, beq_iff_eq, show 0x400 = 2 ^ 10 from rfl, Nat.and_two_pow, hbit]
  rfl

theorem singleUnit_inv (h : Pending start input more room l.cnv [u] l)
    (hmode : l.cnv.fromUIsSingleByteMode = true) (hu : ¬ (0xd800 ≤ u.toNat ∧ u.toNat ≤ 0xdfff))
    (hroom : 0 < l.targetCapacity) (hshort : l.target.length + 3 + 3 * l.source.length ≤
      3 * (waiting start.fromUChar32 ++ input).length) :
    FromInv start input more room (l.singleUnit u.toNat) := by
  have hlt := u.toNat_lt
  -- A unit that stands for itself.
  have direct : (0x20 ≤ u.toNat ∧ u.toNat ≤ 0x7f ∨ u.toNat < 0x20 ∧ isDirectControl u.toNat =
    true) →
      FromInv start input more room (.singleByteMode, (l.putByte u.toNat).next) := by
    intro hdirect
    refine h.putByte (fun q => ⟨q, ?_⟩) hroom hmode (by omega)
    have hd := @decodes_direct l.cnv.fromUDynamicOffsets l.cnv.fromUDynamicWindow q _ hdirect
    rw [UInt16.ofNat_toNat] at hd
    rw [decoder_single hmode]
    exact hd
  rw [FromLocals.singleUnit]
  by_cases hascii : sub32 u.toNat 0x20 ≤ 0x5f
  · rw [if_pos hascii]
    rw [sub32_le_iff (by omega) (by omega) (by omega)] at hascii
    exact direct (Or.inl hascii)
  rw [if_neg hascii]
  rw [sub32_le_iff (by omega) (by omega) (by omega)] at hascii
  by_cases hcontrol : u.toNat < 0x20
  · rw [if_pos hcontrol]
    split
    · next hdirect => exact direct (Or.inr ⟨hcontrol, hdirect⟩)
    rw [Nat.or_comm]
    refine h.outputBytes ?_ (by decide) (by omega)
    exact @mirrors_quoteStatic 0 u l.cnv hmode _ (by omega) (Nat.zero_add _)
  rw [if_neg hcontrol]
  have hoffset := h.valid.offsets l.cnv.fromUDynamicWindow
  by_cases hwindow : sub32 u.toNat l.currentOffset ≤ 0x7f
  · rw [if_pos hwindow]
    have hin : InWindow l.currentOffset u.toNat :=
      (sub32_window_iff (by omega) hoffset.lt).mp hwindow
    have hm := mirrors_windowByte hmode (by omega) hin
    rw [unitsOf_toNat] at hm
    exact h.putByte hm hroom hmode (by omega)
  rw [if_neg hwindow, if_neg (by rw [uIsSurrogate_iff (by omega)]; exact hu)]
  split
  · next hc1 =>
    have hlow : u.toNat &&& 0x7f = u.toNat - 0x80 := by
      rw [Bits.and_low _ 7 _ (by decide)]
      omega
    rw [Nat.or_comm, hlow]
    refine h.outputBytes ?_ (by decide) (by omega)
    exact @mirrors_quoteStatic 1 u l.cnv hmode _ (by omega) (by
      change 0x80 + _ = _
      omega)
  split
  · exact h.outputBytes (mirrors_quoteUnit hmode) (by decide) hshort
  · exact compressBmp_inv h hmode hshort

theorem singleUnit_lead (hv : l.cnv.Valid) (hu : 0xd800 ≤ u.toNat ∧ u.toNat ≤ 0xdbff) :
    l.singleUnit u.toNat = (.getTrailSingle, l) := by
  have hoffset := hv.offsets l.cnv.fromUDynamicWindow
  have hwindow : ¬ sub32 u.toNat l.currentOffset ≤ 0x7f := by
    intro hin
    have hno := hoffset.noSurrogates ((sub32_window_iff (by omega) hoffset.lt).mp hin)
    omega
  have hascii : ¬ sub32 u.toNat 0x20 ≤ 0x5f := by
    rw [sub32_le_iff (by omega) (by omega) (by omega)]
    omega
  have hsurrogate : uIsSurrogate u.toNat = true := (uIsSurrogate_iff (by omega)).mpr (by omega)
  rw [FromLocals.singleUnit, if_neg hascii, if_neg (by omega), if_neg hwindow, if_pos hsurrogate,
    if_pos (isSurrogateLead_of_lead hu)]

theorem singleByteMode_step (h : FromInv start input more room (.singleByteMode, l)) :
    FromInv start input more room l.singleByteMode := by
  obtain ⟨hw, hmode, hzero⟩ := h
  rw [FromLocals.singleByteMode]
  split
  · next hsource => exact hw.ended (Or.inl hsource) (Or.inl hw.err)
  next u source hsource =>
  by_cases hfull : l.targetCapacity = 0
  · rw [if_pos hfull]
    exact hw.ended (Or.inr hfull) (Or.inr rfl)
  rw [if_neg hfull]
  have hc : l.c = 0 := hzero.resolve_right hfull
  by_cases hsurrogate : 0xd800 ≤ u.toNat ∧ u.toNat ≤ 0xdfff
  · obtain ⟨hle, hw'⟩ := hw.lead hc hsource hsurrogate
    rw [singleUnit_lead hw'.valid ⟨hsurrogate.1, hle⟩]
    exact ⟨hw', hmode, by dsimp only; omega, Nat.pos_of_ne_zero hfull⟩
  · obtain ⟨hp, hshort⟩ := hw.pending_unit hc hsource hsurrogate u.toNat
    exact singleUnit_inv hp hmode hsurrogate (Nat.pos_of_ne_zero hfull) hshort

theorem mirrors_pair (hmode : scsu.fromUIsSingleByteMode = false)
    (hl : lead.toNat < 0xe000) (ht : trail.toNat < 0xe000) :
    Mirrors scsu (packedBytes 4 (lead.toNat <<< 16 ||| trail.toNat)) [lead, trail] scsu := by
  intro q
  have h₁ := @decodes_unit scsu.fromUDynamicOffsets scsu.fromUDynamicWindow q lead.toNat (Or.inl hl)
    lead.toNat_lt
  have h₂ := @decodes_unit scsu.fromUDynamicOffsets scsu.fromUDynamicWindow q trail.toNat
    (Or.inl ht)
    trail.toNat_lt
  rw [UInt16.ofNat_toNat] at h₁ h₂
  refine ⟨q, ?_⟩
  rw [packedBytes_pair trail.toNat_lt, decoder_unicode hmode]
  exact h₁.trans h₂

theorem compressSupplementary_inv (h : Pending start input more room l.cnv (unitsOf c) l)
    (hmode : l.cnv.fromUIsSingleByteMode = true) (hroom : 0 < l.targetCapacity)
    (h0 : 0x10000 ≤ c) (hc : c ≤ 0x10ffff) (hunits : unitsOf c = [lead, trail])
    (hl : lead.toNat < 0xe000) (ht : trail.toNat < 0xe000)
    (hshort : l.target.length + 6 + 3 * l.source.length ≤
      3 * (waiting start.fromUChar32 ++ input).length) :
    FromInv start input more room (l.compressSupplementary lead.toNat trail.toNat c) := by
  have hoffset := h.valid.offsets l.cnv.fromUDynamicWindow
  rw [FromLocals.compressSupplementary]
  by_cases hwindow : sub32 c l.currentOffset ≤ 0x7f
  · rw [if_pos hwindow]
    have hin : InWindow l.currentOffset c := (sub32_window_iff (by omega) hoffset.lt).mp hwindow
    exact h.putByte (mirrors_windowByte hmode (by omega) hin) hroom hmode (by omega)
  rw [if_neg hwindow]
  split
  · next window hfound =>
    refine h.change hmode (by omega) hfound (fun q => ?_) (by omega)
    rw [decoder_single hmode]
    exact decodes_change window
  split
  · next code offset hdynamic =>
    refine h.defineExtended hmode h0 hc hdynamic (fun window q hlt => ?_) (by omega)
    rw [decoder_single hmode]
    exact decodes_defineExtended hlt window
  -- The tag is written before the pair.
  have htag : Mirrors l.cnv [UInt8.ofNat scu] [] (l.setMode false).cnv := by
    intro q
    rw [decoder_single hmode]
    exact ⟨q, decodes_toUnicode⟩
  have hp : Pending start input more room (l.setMode false).cnv (unitsOf c)
      ((l.setMode false).putByte scu) := by
    refine ⟨h.err, h.buffer, h.valid.setMode false, h.covers_part htag, h.wellFormed, ?_⟩
    have := h.capacity
    change l.targetCapacity - 1 + (l.target ++ _).length = room
    rw [List.length_append, List.length_singleton]
    omega
  refine hp.outputBytes ?_ (by decide) ?_
  · rw [hunits]
    exact mirrors_pair rfl hl ht
  change (l.target ++ _).length + 4 + 3 * l.source.length ≤ _
  rw [List.length_append, List.length_singleton]
  omega

theorem getTrailSingle_step (h : FromInv start input more room (.getTrailSingle, l)) :
    FromInv start input more room l.getTrailSingle := by
  obtain ⟨hw, hmode, hlead, hroom⟩ := h
  rw [FromLocals.getTrailSingle]
  split
  · next hsource => exact hw.ended (Or.inl hsource) (Or.inl hw.err)
  · next trail source hsource =>
    obtain ⟨htrail, hp, h0, hc, hunits, hshort⟩ := hw.pending_pair hlead hsource
    have hrange := hw.waits.resolve_left hlead
    have hlc : (UInt16.ofNat l.c).toNat = l.c := toNat_ofNat_bmp (by omega)
    have htlt := (u16IsTrail_iff (by have := trail.toNat_lt; omega)).mp htrail
    rw [if_pos htrail]
    have hinv := compressSupplementary_inv (l := { l with source }) hp hmode hroom h0 hc hunits
      (by omega) (by omega) hshort
    rw [hlc] at hinv
    exact hinv

/-! ### Unicode mode -/

theorem mirrors_unit (hmode : scsu.fromUIsSingleByteMode = false)
    (hu : u.toNat < 0xe000 ∨ 0xf300 ≤ u.toNat) : Mirrors scsu (packedBytes 2 u.toNat) [u] scsu := by
  intro q
  have h := @decodes_unit scsu.fromUDynamicOffsets scsu.fromUDynamicWindow q u.toNat hu u.toNat_lt
  rw [UInt16.ofNat_toNat] at h
  refine ⟨q, ?_⟩
  rw [packedBytes_unit, decoder_unicode hmode]
  exact h

theorem mirrors_digitOrLetter (hmode : scsu.fromUIsSingleByteMode = false)
    (hu : 0x20 ≤ u.toNat ∧ u.toNat ≤ 0x7f) :
    Mirrors scsu (packedBytes 2 (u.toNat ||| ((uc0 + scsu.fromUDynamicWindow) <<< 8 ||| u.toNat)))
    [u]
      { scsu with fromUIsSingleByteMode := true } := by
  intro q
  have h := @decodes_direct scsu.fromUDynamicOffsets scsu.fromUDynamicWindow q u.toNat (Or.inl hu)
  have hor : u.toNat ||| ((uc0 + scsu.fromUDynamicWindow) <<< 8 ||| u.toNat) =
      (uc0 + scsu.fromUDynamicWindow) <<< 8 ||| u.toNat := by
    rw [Nat.or_comm, Nat.or_assoc, Nat.or_self]
  rw [UInt16.ofNat_toNat] at h
  refine ⟨q, ?_⟩
  rw [hor, packedBytes_two (by omega), decoder_unicode hmode]
  exact (decodes_unicodeChange _).trans h

theorem compressUnicode_inv (h : Pending start input more room l.cnv [u] l)
    (hmode : l.cnv.fromUIsSingleByteMode = false) (hu : u.toNat < 0x3400 ∨ 0xf300 ≤ u.toNat)
    (hshort : l.target.length + 3 + 3 * l.source.length ≤
      3 * (waiting start.fromUChar32 ++ input).length) :
    FromInv start input more room (l.compressUnicode u.toNat) := by
  have hlt := u.toNat_lt
  have hunits : [u] = unitsOf u.toNat := (unitsOf_toNat u).symm
  have hdirect : FromInv start input more room (l.outputBytes u.toNat 2) :=
    h.outputBytes (mirrors_unit hmode (by omega)) (by decide) (by omega)
  have hp : Pending start input more room l.cnv (unitsOf u.toNat) (l.setMode true) := by
    rw [← hunits]
    exact h.of_valid (h.valid.setMode true)
  rw [FromLocals.compressUnicode]
  split
  · exact hdirect
  split
  · next hletter =>
    have hrange : 0x20 ≤ u.toNat ∧ u.toNat ≤ 0x7f := by
      rw [isDigitOrLetter, Bool.or_eq_true, Bool.or_eq_true, decide_eq_true_iff, decide_eq_true_iff,
        decide_eq_true_iff, sub32_lt_iff (by omega) (by omega) (by omega),
        sub32_lt_iff (by omega) (by omega) (by omega),
        sub32_lt_iff (by omega) (by omega) (by omega)] at hletter
      omega
    have hp' := h.of_valid (h.valid.setMode true)
    exact hp'.outputBytes (mirrors_digitOrLetter hmode hrange) (by decide) (by dsimp only; omega)
  split
  · next window hwindow =>
    refine hp.change rfl (by omega) hwindow (fun q => ?_)
      (by dsimp only [FromLocals.setMode]; omega)
    rw [decoder_unicode hmode]
    exact decodes_unicodeChange window
  split
  · next code offset hoffset =>
    refine hp.define rfl (by omega) hoffset (fun window q hdefines => ?_) hshort
    rw [decoder_unicode hmode]
    exact decodes_unicodeDefine window hdefines
  · exact hdirect

theorem unicodeUnit_inv (h : Pending start input more room l.cnv [u] l)
    (hmode : l.cnv.fromUIsSingleByteMode = false) (hu : ¬ (0xd800 ≤ u.toNat ∧ u.toNat ≤ 0xdfff))
    (hshort : l.target.length + 3 + 3 * l.source.length ≤
      3 * (waiting start.fromUChar32 ++ input).length) :
    FromInv start input more room (l.unicodeUnit u.toNat) := by
  have hlt := u.toNat_lt
  have hideograph : isIdeograph u.toNat = true ↔ 0x3400 ≤ u.toNat ∧ u.toNat < 0xd800 := by
    rw [isIdeograph, decide_eq_true_iff, sub32_lt_iff (by omega) (by omega) (by omega)]
  have hother : sub32 u.toNat 0x3400 ≥ 0xf300 - 0x3400 ↔ u.toNat < 0x3400 ∨ 0xf300 ≤ u.toNat := by
    rw [ge_iff_le, ← Nat.not_lt, sub32_lt_iff (by omega) (by omega) (by omega)]
    omega
  rw [FromLocals.unicodeUnit]
  by_cases hyes : isIdeograph u.toNat = true
  · rw [if_pos hyes]
    rw [hideograph] at hyes
    have hm : Mirrors l.cnv (packedBytes 2 u.toNat) [u] l.cnv := mirrors_unit hmode (by omega)
    split
    · next hroom =>
      have hw := h.writing hm hroom (by change l.target.length + 2 + _ ≤ _; omega)
      have hbytes : ((l.putByte (u.toNat >>> 8)).putByte u.toNat).next =
          { l with target := l.target ++ packedBytes 2 u.toNat,
                   targetCapacity := l.targetCapacity - (packedBytes 2 u.toNat).length, c :=
                     0 } := by
        simp [FromLocals.putByte, FromLocals.next, packedBytes, Nat.sub_sub]
      rw [← hbytes] at hw
      exact ⟨hw, hmode, Or.inl rfl⟩
    · exact h.outputBytes hm (by decide) (by omega)
  rw [if_neg hyes]
  rw [hideograph] at hyes
  by_cases hsmall : sub32 u.toNat 0x3400 ≥ 0xf300 - 0x3400
  · rw [if_pos hsmall]
    exact compressUnicode_inv h hmode (hother.mp hsmall) hshort
  rw [if_neg hsmall]
  rw [hother] at hsmall
  rw [if_neg (by omega)]
  refine h.outputBytes (fun q => ⟨q, ?_⟩) (by decide) hshort
  have hd := @decodes_unicodeQuote l.cnv.fromUDynamicOffsets l.cnv.fromUDynamicWindow q u.toNat hlt
  rw [UInt16.ofNat_toNat] at hd
  rw [packedBytes_tag hlt, decoder_unicode hmode]
  exact hd

theorem unicodeUnit_lead (hu : 0xd800 ≤ u.toNat ∧ u.toNat ≤ 0xdbff) :
    l.unicodeUnit u.toNat = (.getTrailUnicode, l) := by
  have hideograph : ¬ isIdeograph u.toNat = true := by
    rw [isIdeograph, decide_eq_true_iff, sub32_lt_iff (by omega) (by omega) (by omega)]
    omega
  have hother : ¬ sub32 u.toNat 0x3400 ≥ 0xf300 - 0x3400 := by
    rw [ge_iff_le, Nat.not_le, sub32_lt_iff (by omega) (by omega) (by omega)]
    omega
  rw [FromLocals.unicodeUnit, if_neg hideograph, if_neg hother, if_pos (by omega),
    if_pos (isSurrogateLead_of_lead hu)]

theorem unicodeByteMode_step (h : FromInv start input more room (.unicodeByteMode, l)) :
    FromInv start input more room l.unicodeByteMode := by
  obtain ⟨hw, hmode, hzero⟩ := h
  rw [FromLocals.unicodeByteMode]
  split
  · next hsource => exact hw.ended (Or.inl hsource) (Or.inl hw.err)
  next u source hsource =>
  by_cases hfull : l.targetCapacity = 0
  · rw [if_pos hfull]
    exact hw.ended (Or.inr hfull) (Or.inr rfl)
  rw [if_neg hfull]
  have hc : l.c = 0 := hzero.resolve_right hfull
  by_cases hsurrogate : 0xd800 ≤ u.toNat ∧ u.toNat ≤ 0xdfff
  · obtain ⟨hle, hw'⟩ := hw.lead hc hsource hsurrogate
    rw [unicodeUnit_lead ⟨hsurrogate.1, hle⟩]
    exact ⟨hw', hmode, by dsimp only; omega, Nat.pos_of_ne_zero hfull⟩
  · obtain ⟨hp, hshort⟩ := hw.pending_unit hc hsource hsurrogate u.toNat
    exact unicodeUnit_inv hp hmode hsurrogate hshort

theorem compressPair_inv (h : Pending start input more room l.cnv (unitsOf c) l)
    (hmode : l.cnv.fromUIsSingleByteMode = false) (h0 : 0x10000 ≤ c) (hc : c ≤ 0x10ffff)
    (hunits : unitsOf c = [lead, trail]) (hl : lead.toNat < 0xe000) (ht : trail.toNat < 0xe000)
    (hshort : l.target.length + 6 + 3 * l.source.length ≤
      3 * (waiting start.fromUChar32 ++ input).length) :
    FromInv start input more room (l.compressPair lead.toNat trail.toNat c) := by
  have hp : Pending start input more room l.cnv (unitsOf c) (l.setMode true) :=
    h.of_valid (h.valid.setMode true)
  rw [FromLocals.compressPair]
  split
  · next window hwindow =>
    have hfound : getWindow l.cnv.fromUDynamicOffsets c = some window := by
      split at hwindow
      · cases hwindow
      · exact hwindow
    refine hp.change rfl (by omega) hfound (fun q => ?_) (by dsimp only [FromLocals.setMode]; omega)
    rw [decoder_unicode hmode]
    exact decodes_unicodeChange window
  split
  · next code offset hoffset =>
    have hdynamic : getDynamicOffset c = some (code, offset) := by
      split at hoffset
      · exact hoffset
      · cases hoffset
    refine hp.defineExtended rfl h0 hc hdynamic (fun window q hlt => ?_)
      (by dsimp only [FromLocals.setMode]; omega)
    rw [decoder_unicode hmode]
    exact decodes_unicodeDefineExtended hlt window
  · refine h.outputBytes ?_ (by decide) (by omega)
    rw [hunits]
    exact mirrors_pair hmode hl ht

theorem getTrailUnicode_step (h : FromInv start input more room (.getTrailUnicode, l)) :
    FromInv start input more room l.getTrailUnicode := by
  obtain ⟨hw, hmode, hlead, hroom⟩ := h
  rw [FromLocals.getTrailUnicode]
  split
  · next hsource => exact hw.ended (Or.inl hsource) (Or.inl hw.err)
  · next trail source hsource =>
    obtain ⟨htrail, hp, h0, hc, hunits, hshort⟩ := hw.pending_pair hlead hsource
    have hrange := hw.waits.resolve_left hlead
    have hlc : (UInt16.ofNat l.c).toNat = l.c := toNat_ofNat_bmp (by omega)
    have htlt := (u16IsTrail_iff (by have := trail.toNat_lt; omega)).mp htrail
    rw [if_pos htrail]
    have hinv := compressPair_inv (l := { l with source }) hp hmode h0 hc hunits
      (by omega) (by omega) hshort
    rw [hlc] at hinv
    exact hinv

theorem loop_step (h : FromInv start input more room (.loop, l)) :
    FromInv start input more room l.loop := by
  have hw : Writing start input more room l := h
  rw [FromLocals.loop]
  by_cases hmode : l.cnv.fromUIsSingleByteMode = true
  · rw [if_pos hmode]
    split
    · next hlead => exact ⟨hw, hmode, hlead⟩
    · next hno => exact ⟨hw, hmode, by omega⟩
  rw [if_neg hmode]
  rw [Bool.not_eq_true] at hmode
  split
  · next hlead => exact ⟨hw, hmode, hlead⟩
  · next hno => exact ⟨hw, hmode, by omega⟩

theorem fromStep_inv (hs : FromLocals.step s = some s')
    (h : FromInv start input more room s) : FromInv start input more room s' := by
  obtain ⟨label, l⟩ := s
  cases label with
  | loop =>
    cases hs
    exact loop_step h
  | singleByteMode =>
    cases hs
    exact singleByteMode_step h
  | getTrailSingle =>
    cases hs
    exact getTrailSingle_step h
  | unicodeByteMode =>
    cases hs
    exact unicodeByteMode_step h
  | getTrailUnicode =>
    cases hs
    exact getTrailUnicode_step h
  | endloop => cases hs

end Branches

end Call

section Source

variable (l : FromLocals) (c : Nat)

theorem outputBytes_source (length : Nat) : (l.outputBytes c length).2.source = l.source := by
  rw [FromLocals.outputBytes]
  split
  · rfl
  · rfl

theorem compressBmp_source : (l.compressBmp c).2.source = l.source := by
  rw [FromLocals.compressBmp]
  split
  · dsimp only
    split
    · exact outputBytes_source _ _ _
    · exact outputBytes_source _ _ _
  split
  · exact outputBytes_source _ _ _
  split
  · exact outputBytes_source _ _ _
  split
  · exact outputBytes_source _ _ _
  · exact outputBytes_source _ _ _

theorem singleUnit_source : (l.singleUnit c).2.source = l.source := by
  rw [FromLocals.singleUnit]
  split
  · rfl
  split
  · split
    · rfl
    · exact outputBytes_source _ _ _
  split
  · rfl
  split
  · split
    · rfl
    · rfl
  split
  · exact outputBytes_source _ _ _
  split
  · exact outputBytes_source _ _ _
  · exact compressBmp_source _ _

theorem compressSupplementary_source (lead trail : Nat) :
    (l.compressSupplementary lead trail c).2.source = l.source := by
  rw [FromLocals.compressSupplementary]
  split
  · rfl
  split
  · exact outputBytes_source _ _ _
  split
  · exact outputBytes_source _ _ _
  · exact outputBytes_source _ _ _

theorem unicodeUnit_source : (l.unicodeUnit c).2.source = l.source := by
  have hcompress : (l.compressUnicode c).2.source = l.source := by
    rw [FromLocals.compressUnicode]
    split
    · exact outputBytes_source _ _ _
    split
    · exact outputBytes_source _ _ _
    split
    · exact outputBytes_source _ _ _
    split
    · exact outputBytes_source _ _ _
    · exact outputBytes_source _ _ _
  rw [FromLocals.unicodeUnit]
  split
  · split
    · rfl
    · exact outputBytes_source _ _ _
  split
  · exact hcompress
  split
  · split
    · rfl
    · rfl
  · exact outputBytes_source _ _ _

theorem compressPair_source (lead trail : Nat) :
    (l.compressPair lead trail c).2.source = l.source := by
  rw [FromLocals.compressPair]
  split
  · exact outputBytes_source _ _ _
  split
  · exact outputBytes_source _ _ _
  · exact outputBytes_source _ _ _

end Source

def FromLabel.weight : FromLabel → Nat
  | .loop => 3
  | .singleByteMode => 2
  | .unicodeByteMode => 2
  | .getTrailSingle => 1
  | .getTrailUnicode => 1
  | .endloop => 0

def fromMeasure (s : FromLabel × FromLocals) : Nat := s.1.weight + 4 * s.2.source.length

theorem weight_le (label : FromLabel) : label.weight ≤ 3 := by
  cases label <;> decide

theorem fromMeasure_lt {label : FromLabel} {l : FromLocals}
    (hsource : l.source = u :: source) (hs : s.2.source = source)
    (hlabel : 0 < label.weight) : fromMeasure s < fromMeasure (label, l) := by
  have hle := weight_le s.1
  simp only [fromMeasure, hs, hsource, List.length_cons]
  omega

theorem fromStep_measure (hs : FromLocals.step s = some s') : fromMeasure s' < fromMeasure s := by
  obtain ⟨label, l⟩ := s
  -- The end of the source or of the target.
  have hend : ∀ {label : FromLabel} {err : UErrorCode}, 0 < label.weight →
      fromMeasure (.endloop, { l with err }) < fromMeasure (label, l) := by
    intro label err hlabel
    exact Nat.add_lt_add_right hlabel _
  cases label with
  | loop =>
    cases hs
    have hlabel : ∀ label : FromLabel, label.weight < 3 →
      fromMeasure (label, l) < fromMeasure (.loop, l) := by
      intro label hlt
      exact Nat.add_lt_add_right hlt _
    rw [FromLocals.loop]
    split
    · split
      · exact hlabel _ (by decide)
      · exact hlabel _ (by decide)
    · split
      · exact hlabel _ (by decide)
      · exact hlabel _ (by decide)
  | singleByteMode =>
    cases hs
    rw [FromLocals.singleByteMode]
    split
    · exact hend (by decide)
    next u source hsource =>
    split
    · exact hend (by decide)
    · exact fromMeasure_lt hsource (singleUnit_source _ _) (by decide)
  | getTrailSingle =>
    cases hs
    rw [FromLocals.getTrailSingle]
    split
    · exact hend (by decide)
    next trail source hsource =>
    split
    · exact fromMeasure_lt hsource (compressSupplementary_source _ _ _ _) (by decide)
    · exact hend (by decide)
  | unicodeByteMode =>
    cases hs
    rw [FromLocals.unicodeByteMode]
    split
    · exact hend (by decide)
    next u source hsource =>
    split
    · exact hend (by decide)
    · exact fromMeasure_lt hsource (unicodeUnit_source _ _) (by decide)
  | getTrailUnicode =>
    cases hs
    rw [FromLocals.getTrailUnicode]
    split
    · exact hend (by decide)
    next trail source hsource =>
    split
    · exact fromMeasure_lt hsource (compressPair_source _ _ _ _) (by decide)
    · exact hend (by decide)
  | endloop => cases hs

structure Encoder.Ready (scsu : Encoder) : Prop where
  valid : scsu.Valid
  waits : scsu.fromUChar32 = 0 ∨ 0xd800 ≤ scsu.fromUChar32 ∧ scsu.fromUChar32 ≤ 0xdbff

theorem fromUnicodeLocals_ended {cnv : Encoder} {source more : List UInt16} (h : cnv.Ready)
    (hformed : WellFormed (waiting cnv.fromUChar32 ++ source ++ more)) (targetCapacity : Nat) :
    FromEnded cnv source more targetCapacity (fromUnicodeLocals cnv source targetCapacity) := by
  have hstart : FromInv cnv source more targetCapacity
      (.loop, ⟨cnv, source, [], targetCapacity, cnv.fromUChar32, [], .zeroError⟩) := by
    refine ⟨rfl, rfl, h.valid, h.waits, ⟨[], fun q => ⟨q, .nil _⟩, rfl⟩, hformed, rfl, ?_⟩
    exact Nat.le_of_eq (Nat.zero_add _)
  have hfuel : fromMeasure (.loop, ⟨cnv, source, [], targetCapacity, cnv.fromUChar32, [],
    .zeroError⟩) <
      4 * source.length + 4 := by
    simp only [fromMeasure, FromLabel.weight]
    omega
  have hstop := Program.exec_halts FromLocals.step fromStep_measure hfuel
  have hfinal := Program.exec_invariant FromLocals.step fromStep_inv (4 * source.length + 4) hstart
  rw [fromUnicodeLocals]
  generalize Program.exec FromLocals.step (4 * source.length + 4)
    (.loop, ⟨cnv, source, [], targetCapacity, cnv.fromUChar32, [], .zeroError⟩) = p at hstop hfinal
  obtain ⟨label, l⟩ := p
  cases label with
  | endloop => exact hfinal
  | _ => cases hstop

end Icu.Scsu
