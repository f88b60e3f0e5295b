import Icu.Utf7.EncoderRun
import Icu.Utf7.Decoder

/-! # The round trip through UTF-7

The decoder reads the bytes of each unit back. In the middle of a group of three units the last one
waits until the rest of its bits have arrived.
-/

namespace Icu.Utf7

open Lib Lib.Transducer

variable {v version c base64Counter bits : Nat} {k : Int} {waits : List UInt16} {dec : DecoderState}
  {u : UInt16}

def Reads (s : DecoderState) (bytes : List UInt8) (out : List UInt16) (s' : DecoderState) : Prop :=
  ∀ more, transduce decodeByte s (bytes.map some ++ more) = after out (transduce decodeByte s' more)

theorem Reads.nil (s : DecoderState) : Reads s [] [] s := fun _ => rfl

theorem Reads.append {s s' s'' : DecoderState} {bytes bytes' : List UInt8} {out out' : List UInt16}
    (h : Reads s bytes out s') (h' : Reads s' bytes' out' s'') :
    Reads s (bytes ++ bytes') (out ++ out') s'' := by
  intro more
  rw [List.map_append, List.append_assoc, h, h', after_after]

theorem Reads.cons {s s' s'' : DecoderState} {b : UInt8} {bytes : List UInt8}
    {out out' : List UInt16}
    (h : decodeByte s (some b) = some (s', out)) (h' : Reads s' bytes out' s'') :
    Reads s (b :: bytes) (out ++ out') s'' := by
  intro more
  rw [List.map_cons, List.cons_append, transduce_cons h, h', after_after]

theorem base64Value_toBase64 (hv : v < 64) : base64Value (toBase64 v) = v := by
  have htable : ∀ v < 64, base64Value (toBase64 v) = v := by decide
  exact htable v hv

theorem decodeByte_toBase64 (k : Int) (bits : Nat) (hv : v < 64) :
    decodeByte (.unicode k bits) (some (toBase64 v)) = some (decodeBase64 k bits v) := by
  rw [decodeByte, decodeUnicode, base64Value_toBase64 hv, if_neg (by omega), if_pos (by omega),
    Int.toNat_natCast]

theorem reads_plus_minus :
    Reads .direct [UInt8.ofNat plus, UInt8.ofNat minus] [UInt16.ofNat plus] .direct := by
  have hminus : decodeByte (.unicode (-1) 0) (some (UInt8.ofNat minus)) =
      some (.direct, [UInt16.ofNat plus]) := by
    decide
  exact Reads.cons decodeByte_plus (Reads.cons hminus (Reads.nil _))

theorem decodeDirect_of_directIn (h : directIn version c = true) :
    decodeDirect (UInt8.ofNat c) = some (.direct, [UInt16.ofNat c]) ∧
      base64Value (UInt8.ofNat c) = fromBase64 c ∧ c ≠ plus := by
  have hrows : ∀ table ∈ [encodeDirectlyMaximum, encodeDirectlyRestricted],
      ∀ row ∈ table.zipIdx, row.1 ≠ 0 →
        decodeDirect (UInt8.ofNat row.2) = some (.direct, [UInt16.ofNat row.2]) ∧
          row.2 < 126 ∧ row.2 ≠ plus := by
    set_option maxRecDepth 1000 in decide
  rw [directIn, Bool.and_eq_true, bne_iff_ne, List.getD_eq_getElem?_getD] at h
  have htable : (if version = 0 then encodeDirectlyMaximum else encodeDirectlyRestricted) ∈
      [encodeDirectlyMaximum, encodeDirectlyRestricted] := by
    split <;> simp
  generalize (if version = 0 then encodeDirectlyMaximum else encodeDirectlyRestricted) = table at *
  cases hentry : table[c]? with
  | none =>
    rw [hentry] at h
    exact absurd rfl h.2
  | some entry =>
    rw [hentry] at h
    obtain ⟨hread, hlt, hplus⟩ :=
      hrows table htable (entry, c) (List.mem_zipIdx_iff_getElem?.mpr hentry) h.2
    refine ⟨hread, ?_, hplus⟩
    rw [base64Value, UInt8.toNat_ofNat_of_lt' (show c < 256 by omega), if_neg (by omega)]

theorem middle_digit_lt (c k : Nat) : c >>> k &&& 0x3f < 64 :=
  Nat.lt_of_le_of_lt Nat.and_le_right (by decide)

theorem middle_digit_eq (c k : Nat) : c >>> k &&& 0x3f = c / 2 ^ k % 64 := by
  rw [Nat.shiftRight_eq_div_pow]
  exact Bits.and_low _ 6 0x3f (by decide)

theorem join_digit (x c k : Nat) (hx : x = c / 2 ^ k / 64) (hc : c < 65536) :
    (x <<< 6 ||| c >>> k &&& 0x3f) % 0x10000 = c / 2 ^ k := by
  have hdiv : c / 2 ^ k ≤ c := Nat.div_le_self _ _
  have hlow : c / 2 ^ k % 64 < 2 ^ 6 := Nat.mod_lt _ (by decide)
  rw [middle_digit_eq, Bits.or_low hlow, hx]
  omega

theorem shared_digit {c d m k : Nat} (hm : m = 2 ^ k - 1) (hd : d < 2 ^ (6 - k)) :
    (c &&& m) <<< (6 - k) ||| d = c % 2 ^ k * 2 ^ (6 - k) + d := by
  rw [Bits.or_low hd, Bits.and_low _ k _ hm]

/-! ## The encoder against the decoder -/

/-- The decoder has read the bytes of the encoder, and all but the waiting units have come out. -/
inductive Agree : EncoderState → DecoderState → List UInt16 → Prop
  | direct : Agree .direct .direct []
  | start : Agree (.unicode 0 0) (.unicode 0 0) []
  | first (u : UInt16) :
      Agree (.unicode 1 ((u.toNat &&& 15) <<< 2)) (.unicode 2 (u.toNat / 2 ^ 4)) [u]
  | second (u : UInt16) :
      Agree (.unicode 2 ((u.toNat &&& 3) <<< 4)) (.unicode 5 (u.toNat / 2 ^ 2)) [u]

theorem reads_first (hk : k = -1 ∨ k = 0) (bits : Nat) (u : UInt16) :
    Reads (.unicode k bits) (encodeBase64 0 0 u.toNat).2 [] (.unicode 2 (u.toNat / 2 ^ 4)) := by
  have hu := u.toNat_lt
  have hdigit : u.toNat >>> 10 < 64 := by
    rw [Nat.shiftRight_eq_div_pow]
    omega
  have hfirst := decodeByte_toBase64 k bits hdigit
  have hsecond := decodeByte_toBase64 1 (u.toNat >>> 10) (middle_digit_lt u.toNat 4)
  rw [decodeBase64, if_pos hk] at hfirst
  rw [decodeBase64, if_neg (by decide), if_pos (by decide),
    join_digit _ _ _ (by rw [Nat.shiftRight_eq_div_pow]; omega) hu] at hsecond
  exact Reads.cons hfirst (Reads.cons hsecond (Reads.nil _))

theorem ofNat_toNat_eq (u : UInt16) (hc : c = u.toNat) : UInt16.ofNat c = u := by
  rw [hc, UInt16.ofNat_toNat]

theorem decode_rest_of_first (u : UInt16) {d : Nat} (hd : d < 4) :
    decodeByte (.unicode 2 (u.toNat / 2 ^ 4)) (some (toBase64 ((u.toNat &&& 15) <<< 2 ||| d))) =
      some (.unicode 3 d, [u]) := by
  have hshared := @shared_digit u.toNat d 15 4 (by decide) hd
  have hlow : u.toNat % 2 ^ 4 < 2 ^ 4 := Nat.mod_lt _ (by decide)
  have hhigh : ((u.toNat % 2 ^ 4 * 2 ^ (6 - 4) + d) >>> 2 : Nat) = u.toNat % 2 ^ 4 := by
    rw [Nat.shiftRight_eq_div_pow]
    omega
  have hrest : (u.toNat % 2 ^ 4 * 2 ^ (6 - 4) + d) &&& 3 = d := by
    rw [@Bits.and_low _ 2 3 (by decide)]
    omega
  rw [hshared, decodeByte_toBase64 _ _ (by omega), decodeBase64, if_neg (by decide),
    if_neg (by decide),
    if_pos rfl, hhigh, hrest, Bits.or_low hlow, ofNat_toNat_eq u (by omega)]

theorem decode_rest_of_second (u : UInt16) {d : Nat} (hd : d < 16) :
    decodeByte (.unicode 5 (u.toNat / 2 ^ 2)) (some (toBase64 ((u.toNat &&& 3) <<< 4 ||| d))) =
      some (.unicode 6 d, [u]) := by
  have hshared := @shared_digit u.toNat d 3 2 (by decide) hd
  have hlow : u.toNat % 2 ^ 2 < 2 ^ 2 := Nat.mod_lt _ (by decide)
  have hhigh : ((u.toNat % 2 ^ 2 * 2 ^ (6 - 2) + d) >>> 4 : Nat) = u.toNat % 2 ^ 2 := by
    rw [Nat.shiftRight_eq_div_pow]
    omega
  have hrest : (u.toNat % 2 ^ 2 * 2 ^ (6 - 2) + d) &&& 15 = d := by
    rw [@Bits.and_low _ 4 15 (by decide)]
    omega
  rw [hshared, decodeByte_toBase64 _ _ (by omega), decodeBase64, if_neg (by decide),
    if_neg (by decide),
    if_neg (by decide), if_pos rfl, hhigh, hrest, Bits.or_low hlow, ofNat_toNat_eq u (by omega)]

theorem reads_second (u v : UInt16) :
    Reads (.unicode 2 (u.toNat / 2 ^ 4)) (encodeBase64 1 ((u.toNat &&& 15) <<< 2) v.toNat).2 [u]
      (.unicode 5 (v.toNat / 2 ^ 2)) := by
  have hv := v.toNat_lt
  have hfirst := @decode_rest_of_first u (v.toNat >>> 14) (by omega)
  have hsecond := decodeByte_toBase64 3 (v.toNat >>> 14) (middle_digit_lt v.toNat 8)
  have hthird := decodeByte_toBase64 4 (v.toNat / 2 ^ 8) (middle_digit_lt v.toNat 2)
  rw [decodeBase64, if_neg (by decide), if_pos (by decide),
    join_digit _ _ _ (by omega) hv] at hsecond
  rw [decodeBase64, if_neg (by decide), if_pos (by decide),
    join_digit _ _ _ (by omega) hv] at hthird
  exact Reads.cons hfirst (Reads.cons hsecond (Reads.cons hthird (Reads.nil _)))

theorem reads_third (u v : UInt16) :
    Reads (.unicode 5 (u.toNat / 2 ^ 2)) (encodeBase64 2 ((u.toNat &&& 3) <<< 4) v.toNat).2 [u, v]
      (.unicode 0 0) := by
  have hv := v.toNat_lt
  have hfirst := @decode_rest_of_second u (v.toNat >>> 12) (by omega)
  have hsecond := decodeByte_toBase64 6 (v.toNat >>> 12) (middle_digit_lt v.toNat 6)
  have hthird := decodeByte_toBase64 7 (v.toNat / 2 ^ 6) (middle_digit_lt v.toNat 0)
  have hjoin := join_digit (v.toNat / 2 ^ 6) v.toNat 0 (by omega) hv
  rw [decodeBase64, if_neg (by decide), if_pos (by decide),
    join_digit _ _ _ (by omega) hv] at hsecond
  rw [decodeBase64, if_neg (by decide), if_neg (by decide), if_neg (by decide),
    if_neg (by decide)] at hthird
  have hout : UInt16.ofNat ((v.toNat / 2 ^ 6) <<< 6 ||| v.toNat >>> 0 &&& 0x3f) = v := by
    rw [← UInt16.ofNat_mod_size]
    exact ofNat_toNat_eq v (hjoin.trans (Nat.div_one _))
  rw [hout] at hthird
  exact Reads.cons hfirst (Reads.cons hsecond (Reads.cons hthird (Reads.nil _)))

theorem Agree.base64 (h : Agree (.unicode base64Counter bits) dec waits) (u : UInt16) :
    ∃ out dec' waits', Reads dec (encodeBase64 base64Counter bits u.toNat).2 out dec' ∧
      Agree (encodeBase64 base64Counter bits u.toNat).1 dec' waits' ∧ out ++ waits' =
      waits ++ [u] := by
  cases h with
  | start => exact ⟨[], _, [u], reads_first (Or.inr rfl) 0 u, Agree.first u, rfl⟩
  | first v => exact ⟨[v], _, [u], reads_second v u, Agree.second u, rfl⟩
  | second v => exact ⟨[v, u], _, [], reads_third v u, Agree.start, rfl⟩

theorem Agree.leftOver (h : Agree (.unicode base64Counter bits) dec waits) :
    ∃ k : Int, k ≠ -1 ∧ Reads dec (leftOver base64Counter bits) waits (.unicode k 0) := by
  cases h with
  | start => exact ⟨0, by decide, Reads.nil _⟩
  | first u =>
    have hrest := @decode_rest_of_first u 0 (by decide)
    rw [Nat.or_zero] at hrest
    exact ⟨3, by decide, Reads.cons hrest (Reads.nil _)⟩
  | second u =>
    have hrest := @decode_rest_of_second u 0 (by decide)
    rw [Nat.or_zero] at hrest
    exact ⟨6, by decide, Reads.cons hrest (Reads.nil _)⟩

theorem reads_minus (hk : k ≠ -1) : Reads (.unicode k 0) [UInt8.ofNat minus] [] .direct := by
  have hvalue : base64Value (UInt8.ofNat minus) = -2 := by decide
  have hminus : decodeByte (.unicode k 0) (some (UInt8.ofNat minus)) = some (.direct, []) := by
    rw [decodeByte, decodeUnicode, hvalue, if_neg (by decide), if_neg (by decide), if_neg hk,
      if_neg (not_not_intro rfl)]
  exact Reads.cons hminus (Reads.nil _)

theorem reads_direct (h : directIn version u.toNat = true) :
    Reads .direct [UInt8.ofNat u.toNat] [u] .direct := by
  have hbyte := (decodeDirect_of_directIn h).1
  rw [UInt16.ofNat_toNat] at hbyte
  exact @Reads.cons .direct .direct .direct _ _ _ _ hbyte (Reads.nil _)

theorem reads_closing (h : Agree (.unicode base64Counter bits) dec waits)
    (hdirect : directIn version u.toNat = true) :
    Reads dec (closing base64Counter bits u.toNat ++ [UInt8.ofNat u.toNat])
      (waits ++ [u]) .direct := by
  obtain ⟨k, hk, hleft⟩ := h.leftOver
  obtain ⟨hbyte, hvalue, -⟩ := decodeDirect_of_directIn hdirect
  rw [closing, List.append_assoc]
  refine hleft.append ?_
  by_cases hminus : fromBase64 u.toNat ≠ -1
  · rw [if_pos hminus]
    exact (reads_minus hk).append (reads_direct hdirect)
  rw [if_neg hminus, List.nil_append]
  rw [not_not] at hminus
  rw [UInt16.ofNat_toNat] at hbyte
  have hagain : decodeByte (.unicode k 0) (some (UInt8.ofNat u.toNat)) = some (.direct, [u]) := by
    rw [decodeByte, decodeUnicode, hvalue, hminus, if_pos (Or.inr rfl), if_neg, hbyte]
    rintro (hbad | hbad | hbad)
    · exact hk hbad
    · exact hbad rfl
    · cases hbad
  exact Reads.cons hagain (Reads.nil _)

theorem Agree.unit {version : Nat} {enc : EncoderState} {dec : DecoderState} {waits : List UInt16}
    (h : Agree enc dec waits) (u : UInt16) :
    ∃ out dec' waits', Reads dec (encodeCode (directIn version) enc u.toNat).2 out dec' ∧
      Agree (encodeCode (directIn version) enc u.toNat).1 dec' waits' ∧ out ++ waits' =
      waits ++ [u] := by
  cases enc with
  | direct =>
    cases h
    dsimp only [encodeCode]
    by_cases hdirect : directIn version u.toNat = true
    · rw [if_pos hdirect]
      exact ⟨[u], _, [], reads_direct hdirect, Agree.direct, rfl⟩
    rw [if_neg hdirect]
    by_cases hplus : u.toNat = plus
    · rw [if_pos hplus]
      have hu : UInt16.ofNat plus = u := ofNat_toNat_eq u hplus.symm
      have hreads := reads_plus_minus
      rw [hu] at hreads
      exact ⟨[u], _, [], hreads, Agree.direct, rfl⟩
    · rw [if_neg hplus]
      exact ⟨[], _, [u], Reads.cons decodeByte_plus (reads_first (Or.inl rfl) 0 u), Agree.first u,
        rfl⟩
  | unicode k bits =>
    dsimp only [encodeCode]
    by_cases hdirect : directIn version u.toNat = true
    · rw [if_pos hdirect]
      exact ⟨waits ++ [u], _, [], reads_closing h hdirect, Agree.direct, List.append_nil _⟩
    · rw [if_neg hdirect]
      exact h.base64 u

theorem Agree.flush {direct : Nat → Bool} {enc : EncoderState} {dec : DecoderState}
    {waits : List UInt16} (h : Agree enc dec waits) :
    ∃ bytes, encodeUnit direct enc none = some (.direct, bytes) ∧
    Reads dec bytes waits .direct := by
  cases enc with
  | direct =>
    cases h
    exact ⟨[], rfl, Reads.nil _⟩
  | unicode k bits =>
    obtain ⟨k', hk', hleft⟩ := h.leftOver
    have hall := hleft.append (reads_minus hk')
    rw [List.append_nil] at hall
    exact ⟨_, rfl, hall⟩

theorem Agree.text {version : Nat} (s : List UInt16) {enc : EncoderState} {dec : DecoderState}
    {waits : List UInt16} (h : Agree enc dec waits) :
    ∃ bytes, transduce (encodeUnit (directIn version)) enc (s.map some ++ [none]) =
        (bytes, some .direct, []) ∧ Reads dec bytes (waits ++ s) .direct := by
  induction s generalizing enc dec waits with
  | nil =>
    obtain ⟨bytes, hend, hreads⟩ := @Agree.flush (directIn version) _ _ _ h
    refine ⟨bytes, ?_, ?_⟩
    · rw [List.map_nil, List.nil_append, transduce_cons hend, transduce_nil, after, List.append_nil]
    rw [List.append_nil]
    exact hreads
  | cons u s ih =>
    obtain ⟨out, dec', waits', hreads, hnext, hout⟩ := @Agree.unit version _ _ _ h u
    obtain ⟨bytes, htail, hrest⟩ := ih hnext
    have hunit : encodeUnit (directIn version) enc (some u) =
        some ((encodeCode (directIn version) enc u.toNat).1,
          (encodeCode (directIn version) enc u.toNat).2) :=
      rfl
    refine ⟨(encodeCode (directIn version) enc u.toNat).2 ++ bytes, ?_, ?_⟩
    · rw [List.map_cons, List.cons_append, transduce_cons hunit, htail, after]
    have hall := hreads.append hrest
    rw [← List.append_assoc, hout, List.append_assoc] at hall
    exact hall

theorem transduce_encode_decode (version : Nat) (s : List UInt16) :
    ∃ bytes, transduce (encodeUnit (directIn version)) .direct (ended s) =
    (bytes, some .direct, []) ∧
      transduce decodeByte .direct (ended bytes) = (s, some .direct, []) := by
  obtain ⟨bytes, hencode, hreads⟩ := @Agree.text version s _ _ _ Agree.direct
  have hdecode := hreads [none]
  have hend : decodeByte .direct none = some (.direct, []) := rfl
  rw [transduce_cons hend, transduce_nil, after_nil, after, List.append_nil,
    List.nil_append] at hdecode
  exact ⟨bytes, hencode, hdecode⟩

theorem initialFromUnicodeStatus_eq (hv : version ≤ 1) :
    initialFromUnicodeStatus version = statusOf version true 0 0 := by
  have htable : ∀ v ≤ 1, initialFromUnicodeStatus v = statusOf v true 0 0 := by decide
  exact htable version hv

theorem Decoder.state_initial : Decoder.initial.state = .direct := by decide

theorem Decoder.Ready.toUBytes_eq {cnv : Decoder} (h : cnv.Ready) (hdirect : cnv.state = .direct) :
    cnv.toUBytes = [] := by
  obtain ⟨inDirectMode, k, bits, hge, hle, hbits, hstatus, hbytes⟩ := h
  rw [Decoder.state_of_status hge hle hbits hstatus] at hdirect
  cases inDirectMode with
  | true => exact hbytes rfl
  | false => cases hdirect

/-- Whatever the buffers on both sides and for both versions: neither converter reports an error,
and when both have read everything, the text has come back and no byte waits. Calls with enough room
read everything. -/
theorem utf7_roundTrip {version : Nat} (hv : version ≤ 1) (s : List UInt16)
    (requests requests' : List (Nat × Nat)) : ∀ encoded, encoded =
      serveAll utf7FromUnicode (initialFromUnicodeStatus version) (ended s) requests →
    ∀ decoded, decoded = serveAll utf7ToUnicode .initial (ended encoded.output) requests' →
    encoded.failed = false ∧
      (∀ room, 3 * encoded.remaining.length < room →
        (utf7FromUnicode encoded.state encoded.remaining room).rest = []) ∧
      (encoded.remaining = [] → decoded.failed = false ∧ decoded.output <+: s ∧
        (∀ room, decoded.remaining.length < room →
          (utf7ToUnicode decoded.state decoded.remaining room).rest = []) ∧
        (decoded.remaining = [] → decoded.output = s ∧ decoded.state.toUBytes = [])) := by
  intro encoded hencoded decoded hdecoded
  obtain ⟨bytes, hencode, hdecode⟩ := transduce_encode_decode version s
  have hinitial : encoderState (statusOf version true 0 0) = .direct := by
    rw [encoderState_statusOf (by decide) (by decide), if_pos rfl]
  -- the encoder
  have hstart : OnTrack (encodeUnit (directIn version)) encoderState (EncoderReady version)
      (transduce (encodeUnit (directIn version)) .direct (ended s))
      ⟨initialFromUnicodeStatus version, ended s, [], false⟩ := by
    rw [initialFromUnicodeStatus_eq hv]
    refine ⟨fun _ => ⟨encoderReady_initial, ?_⟩, fun hfail => by cases hfail⟩
    rw [hinitial, after_nil]
  have htrack : OnTrack (encodeUnit (directIn version)) encoderState (EncoderReady version)
      (transduce (encodeUnit (directIn version)) .direct (ended s)) encoded := by
    rw [hencoded]
    exact hstart.serveLegal
      (fun state source room hready _ => utf7FromUnicode_keeps hv hready source room)
      (by rw [hencode]; exact Option.some_ne_none _)
  have hok : encoded.failed = false := by
    cases hfailed : encoded.failed with
    | false => rfl
    | true =>
      have hwhole := htrack.fails hfailed
      rw [hencode] at hwhole
      cases hwhole
  obtain ⟨hready, hwhole⟩ := htrack.proceeds hok
  have hsuffix : encoded.remaining <:+ ended s := by
    rw [hencoded]
    exact serveAll_suffix utf7FromUnicode_suffix _ _ _
  refine ⟨hok, fun room hroom => ?_, fun hall => ?_⟩
  · rw [utf7FromUnicode_rest hv hready hroom, splitEnd_tail_of_suffix hsuffix]
  -- the decoder gets all bytes
  have hbytes : encoded.output = bytes := by
    rw [hencode, hall, transduce_nil, after, List.append_nil] at hwhole
    exact (congrArg Prod.fst hwhole).symm
  have hdecode' : transduce decodeByte .direct (ended encoded.output) = (s, some .direct, []) := by
    rw [hbytes]
    exact hdecode
  have hlegal : (transduce decodeByte .direct (ended encoded.output)).2.1 ≠ none := by
    rw [hdecode']
    exact Option.some_ne_none _
  have hstart' : OnTrack decodeByte Decoder.state Decoder.Ready
      (transduce decodeByte .direct (ended encoded.output))
      ⟨.initial, ended encoded.output, [], false⟩ := by
    refine ⟨fun _ => ⟨Decoder.ready_initial, ?_⟩, fun hfail => by cases hfail⟩
    rw [after_nil, Decoder.state_initial]
  have htrack' : OnTrack decodeByte Decoder.state Decoder.Ready
      (transduce decodeByte .direct (ended encoded.output)) decoded := by
    rw [hdecoded]
    exact hstart'.serveLegal (fun state source room hready hlegal =>
      (utf7ToUnicode_keeps hready hlegal room).1) hlegal
  have hok' : decoded.failed = false := by
    cases hfailed : decoded.failed with
    | false => rfl
    | true =>
      have hwhole' := htrack'.fails hfailed
      rw [hdecode'] at hwhole'
      cases congrArg (fun r => r.2.1) hwhole'
  obtain ⟨hready', hwhole'⟩ := htrack'.proceeds hok'
  rw [hdecode'] at hwhole'
  have hsuffix' : decoded.remaining <:+ ended encoded.output := by
    rw [hdecoded]
    exact serveAll_suffix utf7ToUnicode_suffix _ _ _
  refine ⟨hok', ⟨_, (congrArg Prod.fst hwhole').symm⟩, fun room hroom => ?_, fun hall' => ?_⟩
  · rw [utf7ToUnicode_rest hready' ?_ hroom, splitEnd_tail_of_suffix hsuffix']
    have hstate := congrArg (fun r => r.2.1) hwhole'
    intro hnone
    rw [after, hnone] at hstate
    cases hstate
  · rw [hall', transduce_nil, after, List.append_nil, Prod.mk.injEq, Prod.mk.injEq,
      Option.some.injEq] at hwhole'
    exact ⟨hwhole'.1.symm, hready'.toUBytes_eq hwhole'.2.1.symm⟩

/-- Text with direct characters, a plus sign and an unpaired surrogate, in small buffers. -/
theorem utf7_roundTrip_small :
    1 ≤ 1 ∧ (serveAll utf7ToUnicode .initial (ended (serveAll utf7FromUnicode
      (initialFromUnicodeStatus 1) (ended [0x41, 0x2b, 0xd801, 0x21, 0x2d])
      [(3, 1), (1, 1), (2, 1), (9, 99)]).output) [(4, 1), (9, 1), (3, 0), (99, 99)]).output =
        [0x41, 0x2b, 0xd801, 0x21, 0x2d] := by
  have h := @utf7_roundTrip 1 (Nat.le_refl 1) [0x41, 0x2b, 0xd801, 0x21, 0x2d]
    [(3, 1), (1, 1), (2, 1), (9, 99)] [(4, 1), (9, 1), (3, 0), (99, 99)] _ rfl _ rfl
  exact ⟨Nat.le_refl 1, ((h.2.2 (by decide)).2.2.2 (by decide)).1⟩

end Icu.Utf7
