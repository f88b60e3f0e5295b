import Icu.UcnvU8.Offsets
import Icu.Lib.Peeking
import Icu.Utf8.Units
import Mathlib.Data.List.Induction

/-! # The decoder as a transducer

The decoder reads one byte at a time and keeps the bytes of an incomplete sequence. A call of
`ucnv_toUnicode_UTF8` follows this transducer, unless it takes the bytes of an incomplete
sequence for nothing, since their partial value is zero.
-/

namespace Icu.UcnvU8

open Utf16 Utf8 Lib Lib.Peeking

variable {p s : List UInt8} {out : List UInt16} {b a : UInt8}

/-- `ch` behind the bytes of a sequence. -/
def sequenceValue (p : List UInt8) : UInt32 := p.foldl (fun ch b => (ch <<< 6) + b.toUInt32) 0

def sequenceBytes (p : List UInt8) : Nat := bytesFromUTF8.getD (p.headD 0).toNat 0

section Decoder

variable {β : Type} (isCESU8 : Bool) (put : UInt32 → List β)

/-- The bytes of a sequence, with no more to come. -/
def conclude (p : List UInt8) : Move (List UInt8) β :=
  let ch := sequenceValue p - offsetsFromUTF8.getD (sequenceBytes p) 0
  if isLegal isCESU8 p.length (sequenceBytes p) ch then .go [] (put ch) else .reject p

def extend (p : List UInt8) : Move (List UInt8) β :=
  if p.length < sequenceBytes p then .go p [] else conclude isCESU8 put p

def decodeByte (p : List UInt8) (b : UInt8) : Move (List UInt8) β :=
  if p = [] then
    if b.toUInt32 < 0x80 then .go [] (put b.toUInt32) else extend isCESU8 put [b]
  else if u8IsTrail b.toNat then extend isCESU8 put (p ++ [b])
  else .refuse p

end Decoder

def unitsOf (ch : UInt32) : List UInt16 :=
  if ch ≤ 0xffff then [ch.toUInt16] else [leadOf (ch - 0x10000), trailOf (ch - 0x10000)]

theorem length_unitsOf_le (ch : UInt32) : (unitsOf ch).length ≤ 2 := by
  rw [unitsOf]
  split <;> simp

theorem unitsOf_ascii {ch : UInt32} (h : ch < 0x80) : unitsOf ch = [ch.toUInt16] := by
  refine if_pos ?_
  have hlt := UInt32.lt_iff_toNat_lt.mp h
  exact UInt32.le_iff_toNat_le.mpr (Nat.le_trans (Nat.le_of_lt hlt) (by decide))

theorem sequenceValue_singleton (b : UInt8) : sequenceValue [b] = b.toUInt32 := by
  simp [sequenceValue]

theorem sequenceValue_concat (p : List UInt8) (b : UInt8) :
    sequenceValue (p ++ [b]) = (sequenceValue p <<< 6) + b.toUInt32 := by
  simp [sequenceValue]

theorem sequenceBytes_concat (hp : p ≠ []) (b : UInt8) :
    sequenceBytes (p ++ [b]) = sequenceBytes p := by
  obtain ⟨a, as, rfl⟩ := List.exists_cons_of_ne_nil hp
  rfl

theorem bytesFromUTF8_eq {b : Nat} (h : b < 0x100) : bytesFromUTF8.getD b 0 =
    if b < 0x80 then 1 else if b < 0xc0 then 0 else if b < 0xe0 then 2 else if b < 0xf0 then 3
    else if b < 0xf8 then 4 else if b < 0xfc then 5 else if b < 0xfe then 6 else 0 := by
  have hrows : ∀ row ∈ bytesFromUTF8.zipIdx, row.1 =
      if row.2 < 0x80 then 1 else if row.2 < 0xc0 then 0 else if row.2 < 0xe0 then 2
      else if row.2 < 0xf0 then 3 else if row.2 < 0xf8 then 4 else if row.2 < 0xfc then 5
      else if row.2 < 0xfe then 6 else 0 := by
    set_option maxRecDepth 2000 in decide
  have hlength : bytesFromUTF8.length = 0x100 := by
    simp only [bytesFromUTF8, List.length_append, List.length_replicate, List.length_cons,
      List.length_nil]
  have hindex : b < bytesFromUTF8.length := by omega
  rw [List.getD_eq_getElem _ _ hindex]
  exact hrows (_, b) (List.mem_zipIdx_iff_getElem?.mpr (List.getElem?_eq_getElem hindex))

theorem sequenceBytes_le (p : List UInt8) : sequenceBytes p ≤ 6 := by
  rw [sequenceBytes, bytesFromUTF8_eq (p.headD 0).toNat_lt]
  split_ifs <;> omega

theorem conclude_length_le {isCESU8 : Bool}
    (h : conclude isCESU8 unitsOf p = .go s out) : out.length ≤ 2 := by
  rw [conclude] at h
  split at h
  · cases h
    exact length_unitsOf_le _
  · cases h

theorem extend_length_le {isCESU8 : Bool}
    (h : extend isCESU8 unitsOf p = .go s out) : out.length ≤ 2 := by
  rw [extend] at h
  split at h
  · cases h
    exact Nat.zero_le _
  · exact conclude_length_le h

theorem decodeByte_length_le {isCESU8 : Bool} {p : List UInt8} {b : UInt8} {s : List UInt8}
    {out : List UInt16} (h : decodeByte isCESU8 unitsOf p b = .go s out) : out.length ≤ 2 := by
  rw [decodeByte] at h
  split at h
  · split at h
    · cases h
      exact length_unitsOf_le _
    · exact extend_length_le h
  · split at h
    · exact extend_length_le h
    · cases h

def ToConverter.rep (cnv : ToConverter) : List UInt8 := cnv.toUBytes.take cnv.toULength

structure IsPartial (p : List UInt8) : Prop where
  ne_nil : p ≠ []
  trails : ∀ b ∈ p.tail, u8IsTrail b.toNat = true
  short : p.length < sequenceBytes p

structure ToConverter.Valid (cnv : ToConverter) : Prop where
  size : cnv.toUBytes.length = 8
  length : cnv.rep.length = cnv.toULength
  status : cnv.toUnicodeStatus = sequenceValue cnv.rep
  pending : cnv.rep ≠ [] → IsPartial cnv.rep ∧ cnv.mode = sequenceBytes cnv.rep

def ToConverter.Stuck (cnv : ToConverter) : Prop := cnv.rep.length = cnv.toULength

theorem ToConverter.valid_initial : ToConverter.initial.Valid :=
  ⟨rfl, rfl, rfl, fun h => absurd rfl h⟩

def zeroValued : List UInt8 := [0xfd, 0xbd, 0xbd, 0xbe, 0x80]

/-- The call does not go on behind the bytes whose partial value is zero. -/
def ToConverter.Admits (cnv : ToConverter) (source : List UInt8) (targetLimit : Nat) : Prop :=
  cnv.rep = zeroValued → source = [] ∨ targetLimit = 0

instance ToConverter.decidableAdmits (cnv : ToConverter) (source : List UInt8) (targetLimit : Nat) :
    Decidable (cnv.Admits source targetLimit) :=
  inferInstanceAs (Decidable (_ → _))

def sequenceNumber (p : List UInt8) : Nat := p.foldl (fun n b => n * 64 + b.toNat) 0

theorem sequenceNumber_concat (p : List UInt8) (b : UInt8) :
    sequenceNumber (p ++ [b]) = sequenceNumber p * 64 + b.toNat := by
  simp [sequenceNumber]

theorem toNat_sequenceValue (p : List UInt8) :
    (sequenceValue p).toNat = sequenceNumber p % 2 ^ 32 := by
  induction p using List.reverseRecOn with
  | nil => rfl
  | append_singleton p b ih =>
    have hsix : (6 : UInt32).toNat % 32 = 6 := rfl
    rw [sequenceValue_concat, sequenceNumber_concat, UInt32.toNat_add, UInt32.toNat_shiftLeft,
      UInt8.toNat_toUInt32, ih, hsix, Nat.shiftLeft_eq]
    omega

theorem IsPartial.trail (h : IsPartial p) (hb : b ∈ p.tail) :
    0x80 ≤ b.toNat ∧ b.toNat < 0xc0 := (u8IsTrail_iff b.toNat_lt).mp (h.trails b hb)

theorem sequenceNumber_pos {ts : List UInt8} (h : p = a :: ts)
    (ha : 0 < a.toNat) : 0 < sequenceNumber p := by
  subst h
  induction ts using List.reverseRecOn with
  | nil => simpa [sequenceNumber] using ha
  | append_singleton ts b ih =>
    rw [← List.cons_append, sequenceNumber_concat]
    omega

theorem sequenceNumber_le (a : UInt8) (ts : List UInt8) :
    sequenceNumber (a :: ts) + 5 ≤ 260 * 64 ^ ts.length := by
  induction ts using List.reverseRecOn with
  | nil =>
    have ha := a.toNat_lt
    simp only [sequenceNumber, List.foldl_cons, List.foldl_nil, List.length_nil]
    omega
  | append_singleton ts b ih =>
    have hb := b.toNat_lt
    rw [← List.cons_append, sequenceNumber_concat, List.length_append, List.length_singleton,
      Nat.pow_succ]
    omega

/-- Among sequences of five bytes, only one has the partial value zero. -/
theorem eq_zeroValued {c d e : UInt8} (hshort : 5 < sequenceBytes [a, b, c, d, e])
    (htrail : ∀ x ∈ [b, c, d, e], 0x80 ≤ x.toNat ∧ x.toNat < 0xc0)
    (hzero : sequenceNumber [a, b, c, d, e] % 2 ^ 32 = 0) : [a, b, c, d, e] = zeroValued := by
  have ha := a.toNat_lt
  have hlead : 0xfc ≤ a.toNat ∧ a.toNat ≤ 0xfd := by
    rw [sequenceBytes, List.headD_cons, bytesFromUTF8_eq ha] at hshort
    split_ifs at hshort <;> omega
  have hb := htrail b (by simp)
  have hc := htrail c (by simp)
  have hd := htrail d (by simp)
  have he := htrail e (by simp)
  have hsum : sequenceNumber [a, b, c, d, e] =
      (((a.toNat * 64 + b.toNat) * 64 + c.toNat) * 64 + d.toNat) * 64 + e.toNat := by
    simp [sequenceNumber]
  rw [hsum] at hzero
  have hvalues : a.toNat = 0xfd ∧ b.toNat = 0xbd ∧ c.toNat = 0xbd ∧ d.toNat = 0xbe ∧ e.toNat =
    0x80 := by
    omega
  obtain ⟨ha', hb', hc', hd', he'⟩ := hvalues
  rw [UInt8.toNat_inj.mp (show a.toNat = (0xfd : UInt8).toNat from ha'),
    UInt8.toNat_inj.mp (show b.toNat = (0xbd : UInt8).toNat from hb'),
    UInt8.toNat_inj.mp (show c.toNat = (0xbd : UInt8).toNat from hc'),
    UInt8.toNat_inj.mp (show d.toNat = (0xbe : UInt8).toNat from hd'),
    UInt8.toNat_inj.mp (show e.toNat = (0x80 : UInt8).toNat from he')]
  rfl

/-- The partial value of at most four bytes does not overflow. -/
theorem IsPartial.status_ne_zero (h : IsPartial p) (hz : p ≠ zeroValued) : sequenceValue p ≠ 0 := by
  intro hzero
  have hnumber := toNat_sequenceValue p
  rw [hzero, UInt32.toNat_zero] at hnumber
  obtain ⟨a, ts, rfl⟩ := List.exists_cons_of_ne_nil h.ne_nil
  have hshort := h.short
  have hsix := sequenceBytes_le (a :: ts)
  rw [List.length_cons] at hshort
  by_cases hfive : ts.length = 4
  · obtain ⟨b, c, d, e, rfl⟩ := List.length_eq_four.mp hfive
    exact hz (eq_zeroValued hshort (fun _ hx => h.trail hx) hnumber.symm)
  have hpos : 0 < a.toNat := by
    by_contra hnot
    rw [sequenceBytes, List.headD_cons, bytesFromUTF8_eq a.toNat_lt, if_pos (by omega)] at hshort
    omega
  have hle := sequenceNumber_le a ts
  have hge := sequenceNumber_pos rfl (p := a :: ts) hpos
  have hpow : 64 ^ ts.length ≤ 64 ^ 3 := Nat.pow_le_pow_right (by decide) (by omega)
  omega

section Call

variable {isCESU8 : Bool} {targetLimit : Nat} {l : ToLocals}
  {whole : List UInt8 → Outcome (List UInt8) UInt8 UInt16} {cnv : ToConverter} {source : List UInt8}

structure ToRunning (l : ToLocals) : Prop where
  size : l.cnv.toUBytes.length = 8
  status : l.cnv.toUnicodeStatus = 0
  buffer : l.uCharErrorBuffer = []
  err : l.err = .zeroError

structure ToIdle (isCESU8 : Bool) (whole : List UInt8 → Outcome (List UInt8) UInt8 UInt16)
    (targetLimit : Nat) (l : ToLocals) : Prop extends ToRunning l where
  empty : l.cnv.toULength = 0
  room : l.target.length ≤ targetLimit
  follows : Follows (decodeByte isCESU8 unitsOf) whole l.target [] l.source

/-- Behind some bytes `p` of a sequence, which may end here. -/
structure ToPending (isCESU8 : Bool) (whole : List UInt8 → Outcome (List UInt8) UInt8 UInt16)
    (targetLimit : Nat) (l : ToLocals) (p : List UInt8) : Prop extends ToRunning l where
  room : l.target.length < targetLimit
  bytes : l.cnv.toUBytes.take l.i = p
  length : p.length = l.i
  ne_nil : p ≠ []
  trails : ∀ b ∈ p.tail, u8IsTrail b.toNat = true
  inBytes : l.inBytes = sequenceBytes p
  value : l.ch = sequenceValue p
  follows : l.i < l.inBytes → Follows (decodeByte isCESU8 unitsOf) whole l.target p l.source
  ends : ¬ l.i < l.inBytes → ∃ a,
    Pauses (decodeByte isCESU8 unitsOf) whole l.target a l.source (conclude isCESU8 unitsOf p)

structure ToEnded (isCESU8 : Bool) (whole : List UInt8 → Outcome (List UInt8) UInt8 UInt16)
    (targetLimit : Nat) (l : ToLocals) : Prop where
  proceeds : l.err ≠ .illegalCharFound → l.cnv.Valid ∧
    Follows (decodeByte isCESU8 unitsOf) whole (l.target ++ l.uCharErrorBuffer) l.cnv.rep l.source
  fails : l.err = .illegalCharFound → l.cnv.Stuck ∧
    Stops whole (l.target ++ l.uCharErrorBuffer) l.cnv.rep l.source
  cleared : l.err = .illegalCharFound → l.cnv.toUnicodeStatus = 0
  complete : l.err ≠ .illegalCharFound →
    l.source = [] ∧ l.uCharErrorBuffer = [] ∧ l.err = .zeroError ∨ l.target.length = targetLimit

def ToInv (isCESU8 : Bool) (whole : List UInt8 → Outcome (List UInt8) UInt8 UInt16)
    (targetLimit : Nat) : ToLabel × ToLocals → Prop
  | (.loop, l) => ToIdle isCESU8 whole targetLimit l
  | (.morebytes, l) => l.cnv.toULength = 0 ∧ ∃ p, ToPending isCESU8 whole targetLimit l p
  | (.donefornow, l) => ToEnded isCESU8 whole targetLimit l

theorem ToConverter.rep_of_zero (h : cnv.toULength = 0) : cnv.rep = [] := by
  rw [ToConverter.rep, h, List.take_zero]

theorem ToConverter.Valid.of_zero (h : cnv.toULength = 0)
    (hsize : cnv.toUBytes.length = 8) (hstatus : cnv.toUnicodeStatus = 0) : cnv.Valid := by
  have hrep := ToConverter.rep_of_zero h
  refine ⟨hsize, ?_, ?_, fun hne => absurd hrep hne⟩
  · rw [hrep, h]
    rfl
  · rw [hrep, hstatus]
    rfl

theorem ToIdle.ended (h : ToIdle isCESU8 whole targetLimit l)
    (hend : l.source = [] ∨ ¬ l.target.length < targetLimit) :
    ToEnded isCESU8 whole targetLimit l := by
  refine ⟨fun _ => ⟨.of_zero h.empty h.size h.status, ?_⟩, fun hfail => ?_, fun _ => h.status,
    fun _ => ?_⟩
  · rw [h.buffer, List.append_nil, ToConverter.rep_of_zero h.empty]
    exact h.follows
  · rw [h.err] at hfail
    cases hfail
  · have hroom := h.room
    rcases hend with hend | hend
    · exact Or.inl ⟨hend, h.buffer, h.err⟩
    · exact Or.inr (by omega)

theorem putChar_inv (hr : ToRunning l) (hempty : l.cnv.toULength = 0)
    (hroom : l.target.length < targetLimit) (hbytes : l.cnv.toUBytes.take l.i = p)
    (hlength : p.length = l.i) (hin : l.inBytes = sequenceBytes p) (hvalue : l.ch = sequenceValue p)
    (hpause : Pauses (decodeByte isCESU8 unitsOf) whole l.target a l.source
      (conclude isCESU8 unitsOf p)) :
    ToInv isCESU8 whole targetLimit (l.putChar isCESU8 targetLimit) := by
  rw [ToLocals.putChar]
  rw [conclude, hlength, ← hin, ← hvalue] at hpause
  dsimp only at hpause ⊢
  split
  · next hlegal =>
    rw [if_pos hlegal] at hpause
    have hgo := hpause.go
    split
    · next hbmp =>
      rw [unitsOf, if_pos hbmp] at hgo
      refine ⟨⟨hr.size, hr.status, hr.buffer, hr.err⟩, hempty, ?_, hgo⟩
      rw [List.length_append, List.length_singleton]
      exact hroom
    · next hbmp =>
      rw [unitsOf, if_neg hbmp] at hgo
      split
      · next hmore =>
        refine ⟨⟨hr.size, hr.status, hr.buffer, hr.err⟩, hempty, ?_, ?_⟩
        · dsimp only
          rw [List.length_append, List.length_singleton]
          exact hmore
        · dsimp only
          rwa [List.append_assoc]
      · next hfull =>
        refine ⟨fun _ => ⟨.of_zero hempty hr.size hr.status, ?_⟩, fun hfail => ?_, fun _ =>
          hr.status,
          fun _ => ?_⟩
        · rw [ToConverter.rep_of_zero hempty, List.append_assoc]
          exact hgo
        · cases hfail
        · refine Or.inr ?_
          rw [List.length_append, List.length_singleton] at hfull ⊢
          omega
  · next hlegal =>
    rw [if_neg hlegal] at hpause
    refine ⟨fun hok => absurd rfl hok, fun _ => ⟨?_, ?_⟩, fun _ => hr.status, fun hok =>
      absurd rfl hok⟩
    · rw [ToConverter.Stuck, ToConverter.rep, hbytes, hlength]
    rw [hr.buffer, List.append_nil, ToConverter.rep, hbytes]
    exact hpause.reject

theorem putChar_short (hr : ToRunning l)
    (hbytes : l.cnv.toUBytes.take l.i = p) (hlength : p.length = l.i) (hshort : l.i < l.inBytes)
    (hsource : l.source = b :: source) (hp : p ≠ []) (htrail : ¬ u8IsTrail b.toNat = true)
    (hf : Follows (decodeByte isCESU8 unitsOf) whole l.target p l.source) :
    ToInv isCESU8 whole targetLimit (l.putChar isCESU8 targetLimit) := by
  have hrefuse : decodeByte isCESU8 unitsOf p b = .refuse p := by
    rw [decodeByte, if_neg hp, if_neg htrail]
  have hnot : ¬ isLegal isCESU8 l.i l.inBytes (l.ch - offsetsFromUTF8.getD l.inBytes 0) = true := by
    have hne : l.i ≠ l.inBytes := by omega
    simp [isLegal, hne]
  rw [ToLocals.putChar]
  rw [if_neg hnot]
  refine ⟨fun hok => absurd rfl hok, fun _ => ⟨?_, ?_⟩, fun _ => hr.status, fun hok =>
    absurd rfl hok⟩
  · rw [ToConverter.Stuck, ToConverter.rep, hbytes, hlength]
  rw [hr.buffer, List.append_nil, ToConverter.rep, hbytes]
  rw [hsource] at hf ⊢
  exact hf.refuse hrefuse

theorem take_set_self {bytes : List UInt8} {i : Nat} (h : i < bytes.length) (b : UInt8) :
    (bytes.set i b).take (i + 1) = bytes.take i ++ [b] := by
  rw [List.take_add_one, List.getElem?_set_self h, List.take_set_of_le (Nat.le_refl i)]
  rfl

theorem take_set (bytes : List UInt8) (i : Nat) (b : UInt8) :
    (bytes.set i b).take i = bytes.take i := List.take_set_of_le (Nat.le_refl i)

theorem ToPending.extend
    (h : ToPending isCESU8 whole targetLimit l p) (hempty : l.cnv.toULength = 0)
    (hmore : l.i < l.inBytes) (hsource : l.source = b :: source)
    (htrail : u8IsTrail b.toNat = true) :
    ToInv isCESU8 whole targetLimit (.morebytes,
      { l with cnv := { l.cnv with toUBytes := l.cnv.toUBytes.set l.i b }, source,
               ch := (l.ch <<< 6) + b.toUInt32, i := l.i + 1 }) := by
  have hsix := sequenceBytes_le p
  have hi : l.i < l.cnv.toUBytes.length := by
    rw [h.size]
    have hin := h.inBytes
    omega
  have hf := h.follows hmore
  rw [hsource] at hf
  have hmove : decodeByte isCESU8 unitsOf p b = UcnvU8.extend isCESU8 unitsOf (p ++ [b]) := by
    rw [decodeByte, if_neg h.ne_nil, if_pos htrail]
  have hlength : (p ++ [b]).length = l.i + 1 := by
    rw [List.length_append, List.length_singleton, h.length]
  have hbytes : sequenceBytes (p ++ [b]) = l.inBytes := by
    rw [sequenceBytes_concat h.ne_nil, h.inBytes]
  refine ⟨hempty, p ++ [b], ⟨?_, h.status, h.buffer, h.err⟩, h.room, ?_, hlength, by simp, ?_,
    hbytes.symm, ?_, fun hshort => ?_, fun hlong => ?_⟩
  · rw [List.length_set, h.size]
  · dsimp only
    rw [take_set_self hi, h.bytes]
  · intro x hx
    rw [List.tail_append_of_ne_nil h.ne_nil, List.mem_append, List.mem_singleton] at hx
    rcases hx with hx | rfl
    · exact h.trails x hx
    · exact htrail
  · dsimp only
    rw [sequenceValue_concat, h.value]
  · dsimp only at hshort ⊢
    rw [UcnvU8.extend, if_pos (by rw [hlength, hbytes]; exact hshort)] at hmove
    have hgo := hf.go hmove
    rwa [List.append_nil] at hgo
  · dsimp only at hlong ⊢
    rw [UcnvU8.extend, if_neg (by rw [hlength, hbytes]; exact hlong)] at hmove
    have hpause := hf.pauses
    rw [hmove] at hpause
    exact ⟨b, hpause⟩

theorem morebytes_inv (h : ToInv isCESU8 whole targetLimit (.morebytes, l)) :
    ToInv isCESU8 whole targetLimit (l.morebytes isCESU8 targetLimit) := by
  obtain ⟨hempty, p, hp⟩ := h
  rw [ToLocals.morebytes]
  split
  · next hmore =>
    split
    · next b source hsource =>
      split
      · next htrail =>
        rw [Bool.not_eq_true'] at htrail
        refine putChar_short (p := p) (b := b) ⟨?_, hp.status, hp.buffer, hp.err⟩ ?_ hp.length hmore
          hsource
          hp.ne_nil (by simp [htrail]) ?_
        · dsimp only
          rw [List.length_set, hp.size]
        · dsimp only
          rw [take_set, hp.bytes]
        · exact hp.follows hmore
      · next htrail =>
        exact hp.extend hempty hmore hsource (by simpa using htrail)
    · next hsource =>
      have hrep : l.cnv.toUBytes.take l.i = p := hp.bytes
      refine ⟨fun _ => ⟨⟨hp.size, ?_, ?_, fun _ => ⟨⟨?_, ?_, ?_⟩, ?_⟩⟩, ?_⟩, fun hfail => ?_,
        fun hfail => ?_, fun _ => Or.inl ⟨hsource, hp.buffer, hp.err⟩⟩
      · rw [ToConverter.rep, hrep, hp.length]
      · rw [ToConverter.rep, hrep, hp.value]
      · rw [ToConverter.rep, hrep]
        exact hp.ne_nil
      · rw [ToConverter.rep, hrep]
        exact hp.trails
      · rw [ToConverter.rep, hrep, hp.length, ← hp.inBytes]
        exact hmore
      · rw [ToConverter.rep, hrep, hp.inBytes]
      · rw [ToConverter.rep, hrep, hp.buffer, List.append_nil]
        exact hp.follows hmore
      all_goals
        rw [hp.err] at hfail
        cases hfail
  · next hmore =>
    obtain ⟨a, hpause⟩ := hp.ends hmore
    exact putChar_inv hp.toToRunning hempty hp.room hp.bytes hp.length hp.inBytes hp.value hpause

theorem toUInt32_lt_iff (b : UInt8) : b.toUInt32 < 0x80 ↔ b.toNat < 0x80 := by
  rw [UInt32.lt_iff_toNat_lt, UInt8.toNat_toUInt32]
  rfl

theorem loop_inv (h : ToInv isCESU8 whole targetLimit (.loop, l)) :
    ToInv isCESU8 whole targetLimit (l.loop targetLimit) := by
  change ToIdle isCESU8 whole targetLimit l at h
  rw [ToLocals.loop]
  split
  · next hsource => exact h.ended (Or.inl hsource)
  next b source hsource =>
  split
  swap
  · next hfull => exact h.ended (Or.inr hfull)
  next hroom =>
  have hf := h.follows
  rw [hsource] at hf
  dsimp only
  split
  · next hascii =>
    have hmove : decodeByte isCESU8 unitsOf [] b = .go [] [b.toUInt32.toUInt16] := by
      rw [decodeByte, if_pos rfl, if_pos hascii, unitsOf_ascii hascii]
    refine ⟨⟨h.size, h.status, h.buffer, h.err⟩, h.empty, ?_, hf.go hmove⟩
    rw [List.length_append, List.length_singleton]
    exact hroom
  · next hlead =>
    have hmove : decodeByte isCESU8 unitsOf [] b = extend isCESU8 unitsOf [b] := by
      rw [decodeByte, if_pos rfl, if_neg hlead]
    refine ⟨h.empty, [b], ⟨?_, h.status, h.buffer, h.err⟩, hroom, ?_, rfl, List.cons_ne_nil b [],
      fun x hx => (by cases hx), rfl, (sequenceValue_singleton b).symm, fun hshort => ?_,
        fun hlong => ?_⟩
    · rw [List.length_set, h.size]
    · exact take_set_self (by rw [h.size]; decide) b
    · rw [extend, if_pos (show [b].length < sequenceBytes [b] from hshort)] at hmove
      have hgo := hf.go hmove
      rwa [List.append_nil] at hgo
    · rw [extend, if_neg (show ¬ [b].length < sequenceBytes [b] from hlong)] at hmove
      have hpause := hf.pauses
      rw [hmove] at hpause
      exact ⟨b, hpause⟩

theorem step_inv {s s' : ToLabel × ToLocals} (hs : ToLocals.step isCESU8 targetLimit s = some s')
    (h : ToInv isCESU8 whole targetLimit s) : ToInv isCESU8 whole targetLimit s' := by
  obtain ⟨label, l⟩ := s
  cases label with
  | loop =>
    rw [← Option.some.inj hs]
    exact loop_inv h
  | morebytes =>
    rw [← Option.some.inj hs]
    exact morebytes_inv h
  | donefornow => cases hs

theorem exec_ended (h : ToInv isCESU8 whole targetLimit (ToLocals.start targetLimit cnv source)) :
    ToEnded isCESU8 whole targetLimit (Program.exec (ToLocals.step isCESU8 targetLimit)
      (toFuel source) (ToLocals.start targetLimit cnv source)).2 := by
  have hdone := @ToLocals.exec_done isCESU8 targetLimit cnv source
  have hinv := Program.exec_invariant (ToLocals.step isCESU8 targetLimit) step_inv (toFuel source) h
  generalize Program.exec (ToLocals.step isCESU8 targetLimit) (toFuel source)
    (ToLocals.start targetLimit cnv source) = s at hdone hinv
  obtain ⟨label, l⟩ := s
  cases label with
  | loop => cases hdone
  | morebytes => cases hdone
  | donefornow => exact hinv

theorem ToEnded.finish (h : ToEnded isCESU8 whole targetLimit l) :
    ToEnded isCESU8 whole targetLimit (l.finish targetLimit) := by
  rw [ToLocals.finish]
  split
  · next hover =>
    have herr : l.err ≠ .illegalCharFound := by
      intro hillegal
      rw [hillegal] at hover
      exact absurd hover.2.2 (by decide)
    refine ⟨fun _ => h.proceeds herr, fun hfail => (by cases hfail), fun hfail => (by cases hfail),
      fun _ => Or.inr ((h.complete herr).resolve_left fun hdone => hover.1 hdone.1)⟩
  · exact h

/-- A call without room, or with nothing to read and nothing to go on with, changes nothing. -/
theorem toUnicodeUTF8_unchanged (h : targetLimit = 0 ∨ cnv.toUnicodeStatus = 0 ∧ source = []) :
    toUnicodeUTF8 isCESU8 cnv source targetLimit =
      ⟨cnv, source, [], [], if source = [] then .zeroError else .bufferOverflowError⟩ := by
  have hstart : ToLocals.start targetLimit cnv source =
      (.loop, ⟨cnv, source, [], [], 0, 0, 0, .zeroError⟩) := by
    rw [ToLocals.start, if_neg]
    rintro ⟨hstatus, hroom⟩
    rcases h with h | h
    · omega
    · exact hstatus h.1
  have hloop : ToLocals.loop targetLimit ⟨cnv, source, [], [], 0, 0, 0, .zeroError⟩ =
      (.donefornow, ⟨cnv, source, [], [], 0, 0, 0, .zeroError⟩) := by
    rw [ToLocals.loop]
    rcases h with h | h
    · split
      · rfl
      · rw [if_neg (by simp [h])]
    · rw [h.2]
  have hexec : Program.exec (ToLocals.step isCESU8 targetLimit) (toFuel source)
      (ToLocals.start targetLimit cnv source) =
        (.donefornow, ⟨cnv, source, [], [], 0, 0, 0, .zeroError⟩) := by
    rw [hstart, toFuel, Program.exec, ToLocals.step, hloop]
    rfl
  rw [toUnicodeUTF8, hexec, ToLocals.finish]
  by_cases hnil : source = []
  · simp [hnil, ToLocals.result]
  have hzero : targetLimit = 0 := h.resolve_right (fun h' => hnil h'.2)
  simp [hnil, hzero, ToLocals.result, UErrorCode.isSuccess]

theorem start_inv {cnv : ToConverter} {source : List UInt8} (hv : cnv.Valid)
    (hroom : 0 < targetLimit) (hstatus : cnv.rep ≠ [] → cnv.toUnicodeStatus ≠ 0) :
    ToInv isCESU8 (fun more => run (decodeByte isCESU8 unitsOf) cnv.rep (source ++ more))
      targetLimit (ToLocals.start targetLimit cnv source) := by
  rw [ToLocals.start]
  by_cases hrep : cnv.rep = []
  · have hzero : cnv.toUnicodeStatus = 0 := by
      rw [hv.status, hrep]
      rfl
    have hempty : cnv.toULength = 0 := by
      rw [← hv.length, hrep]
      rfl
    rw [if_neg (fun h => h.1 hzero)]
    refine ⟨⟨hv.size, hzero, rfl, rfl⟩, hempty, Nat.zero_le _, fun more => ?_⟩
    rw [hrep, Outcome.after_nil]
  · obtain ⟨hpart, hmode⟩ := hv.pending hrep
    have hlength := hv.length
    have hshort : cnv.toULength < cnv.mode := by
      rw [← hlength, hmode]
      exact hpart.short
    rw [if_pos ⟨hstatus hrep, hroom⟩]
    refine ⟨rfl, cnv.rep, ⟨hv.size, rfl, rfl, rfl⟩, hroom, rfl, hlength, hrep, hpart.trails, hmode,
      hv.status, fun _ more => ?_, fun hlong => absurd hshort hlong⟩
    rw [Outcome.after_nil]

theorem ToConverter.Valid.status_ne_zero (hv : cnv.Valid) (ha : cnv.Admits source targetLimit)
    (hmove : ¬ (targetLimit = 0 ∨ cnv.toUnicodeStatus = 0 ∧ source = [])) :
    cnv.rep ≠ [] → cnv.toUnicodeStatus ≠ 0 := by
  intro hrep hzero
  have hvalue := hzero
  rw [hv.status] at hvalue
  refine (hv.pending hrep).1.status_ne_zero (fun hz => hmove ?_) hvalue
  rcases ha hz with hnil | hfull
  · exact Or.inr ⟨hzero, hnil⟩
  · exact Or.inl hfull

theorem toUnicodeUTF8_ended {cnv : ToConverter} {source : List UInt8} (hv : cnv.Valid)
    (ha : cnv.Admits source targetLimit)
    (hmove : ¬ (targetLimit = 0 ∨ cnv.toUnicodeStatus = 0 ∧ source = [])) :
    ∃ l : ToLocals, toUnicodeUTF8 isCESU8 cnv source targetLimit = l.result ∧
      ToEnded isCESU8 (fun more => run (decodeByte isCESU8 unitsOf) cnv.rep (source ++ more))
        targetLimit l := by
  have hlimit : targetLimit ≠ 0 := fun h => hmove (Or.inl h)
  have hinv := @start_inv isCESU8 _ _ source hv (Nat.pos_of_ne_zero hlimit)
    (hv.status_ne_zero ha hmove)
  exact ⟨_, rfl, (exec_ended hinv).finish⟩

theorem toUnicodeUTF8_keeps {cnv : ToConverter} {source : List UInt8} (hv : cnv.Valid)
    (ha : cnv.Admits source targetLimit) :
    Keeps (decodeByte isCESU8 unitsOf) ToConverter.rep ToConverter.Valid ToConverter.Stuck cnv
      source
      (toUnicodeUTF8 isCESU8 cnv source targetLimit).reply := by
  by_cases hstay : targetLimit = 0 ∨ cnv.toUnicodeStatus = 0 ∧ source = []
  · rw [toUnicodeUTF8_unchanged hstay]
    refine ⟨fun _ => ⟨hv, fun more => ?_⟩, fun hfail => ?_⟩
    · exact (Outcome.after_nil _).symm
    dsimp only [ToResult.reply] at hfail
    split at hfail <;> cases hfail
  · obtain ⟨l, hl, hended⟩ := @toUnicodeUTF8_ended isCESU8 _ _ _ hv ha hstay
    rw [hl]
    exact ⟨fun hok => hended.proceeds (of_decide_eq_false hok),
      fun hfail => hended.fails (of_decide_eq_true hfail)⟩

theorem toUnicodeUTF8_all (hv : cnv.Valid)
    (ha : cnv.Admits source targetLimit) (hroom : 2 * source.length < targetLimit)
    (hok : (toUnicodeUTF8 isCESU8 cnv source targetLimit).reply.failed = false) :
    (toUnicodeUTF8 isCESU8 cnv source targetLimit).reply.rest = [] := by
  by_cases hstay : targetLimit = 0 ∨ cnv.toUnicodeStatus = 0 ∧ source = []
  · rw [toUnicodeUTF8_unchanged hstay]
    exact (hstay.resolve_left (by omega)).2
  obtain ⟨l, hl, hended⟩ := @toUnicodeUTF8_ended isCESU8 _ _ _ hv ha hstay
  rw [hl] at hok ⊢
  have herr : l.err ≠ .illegalCharFound := of_decide_eq_false hok
  rcases hended.complete herr with hdone | hfull
  · exact hdone.1
  have hle := (hended.proceeds herr).2.length_le fun _ _ _ _ => decodeByte_length_le
  rw [List.length_append] at hle
  omega

end Call

end Icu.UcnvU8
