import Icu.Lib.RangeNotation
import Icu.Pattern.Tokens
import Icu.UnicodeSet.Algebra
import Mathlib.Data.Int.ConditionallyCompleteOrder

/-! # Reading the characters and ranges of a pattern

A generated pattern is a sequence of characters, some with a hyphen before them. The parser
reads what is left after lead and trail surrogates have been joined, and it reads it as the
notation of ranges says.
-/

namespace Icu.Pattern

open Utf16 UnicodeSet Lib.RangeNotation

/-- A character as it is written, with a hyphen before it or without. -/
structure Written where
  hyphen : Bool
  text : List UInt16
  c : Nat

namespace Written

def units (w : Written) : List UInt16 := if w.hyphen then 0x2d :: w.text else w.text

def items (w : Written) : List (Item Int) := if w.hyphen then [.hyphen, .char w.c] else [.char w.c]

end Written

def unitsOfAll (ws : List Written) : List UInt16 := ws.flatMap Written.units

def itemsOfAll (ws : List Written) : List (Item Int) := ws.flatMap Written.items

def joins (w v : Written) : Bool := u16IsLead w.c && !v.hyphen && u16IsTrail v.c

def join : List Written → List Written
  | [] => []
  | [w] => [w]
  | w :: v :: ws =>
    if joins w v then ⟨w.hyphen, w.text ++ v.text, u16GetSupplementary w.c v.c⟩ :: join ws
    else w :: join (v :: ws)

def Separate : List Written → Prop
  | [] => True
  | w :: ws => Token w.text w.c ∧ (∀ v, ws.head? = some v → joins w v = false) ∧ Separate ws

theorem unitsOfAll_cons (w : Written) (ws : List Written) :
    unitsOfAll (w :: ws) = w.units ++ unitsOfAll ws := List.flatMap_cons

theorem unitsOfAll_join (ws : List Written) : unitsOfAll (join ws) = unitsOfAll ws := by
  induction ws using join.induct with
  | case1 => rfl
  | case2 w => rfl
  | case3 w v ws hjoin ih =>
    have hv : v.hyphen = false := by
      rw [joins, Bool.and_eq_true, Bool.and_eq_true] at hjoin
      simpa using hjoin.1.2
    rw [join, if_pos hjoin, unitsOfAll_cons, ih, unitsOfAll_cons, unitsOfAll_cons]
    have hunits : v.units = v.text := by simp [Written.units, hv]
    rw [hunits, ← List.append_assoc]
    congr 1
    unfold Written.units
    split <;> rfl
  | case4 w v ws hjoin ih => rw [join, if_neg hjoin, unitsOfAll_cons, ih, ← unitsOfAll_cons]

/-- Characters as `_appendToPat` writes them. -/
def AsWritten (escape : Bool) (ws : List Written) : Prop :=
  ∀ w ∈ ws, w.text = appendToPat escape w.c ∧ w.c ≤ 0x10ffff

theorem joins_ranges {w v : Written} (h : joins w v = true) (hw : w.c ≤ 0x10ffff)
    (hv : v.c ≤ 0x10ffff) :
    (0xd800 ≤ w.c ∧ w.c ≤ 0xdbff) ∧ v.hyphen = false ∧ (0xdc00 ≤ v.c ∧ v.c ≤ 0xdfff) := by
  rw [joins, Bool.and_eq_true, Bool.and_eq_true, u16IsLead_iff (by omega),
    u16IsTrail_iff (by omega),
    Bool.not_eq_true'] at h
  exact ⟨h.1.1, h.1.2, h.2⟩

theorem not_trail_of_supplementary {c : Nat} (h : 0x10000 ≤ c) (hle : c ≤ 0x10ffff) :
    u16IsLead c = false ∧ u16IsTrail c = false := by
  rw [← Bool.not_eq_true, ← Bool.not_eq_true, u16IsLead_iff (by omega), u16IsTrail_iff (by omega)]
  omega

theorem join_head {escape : Bool} {w v : Written} {ws : List Written}
    (hws : AsWritten escape (v :: ws)) (h : (join (v :: ws)).head? = some w) :
    w = v ∨ u16IsTrail w.c = false := by
  cases ws with
  | nil => exact Or.inl (Option.some.inj h).symm
  | cons u ws =>
    rw [join] at h
    split at h
    · next hjoin =>
      obtain ⟨hlead, -, htrail⟩ := joins_ranges hjoin (hws v List.mem_cons_self).2
        (hws u (List.mem_cons_of_mem _ List.mem_cons_self)).2
      have hbounds := u16GetSupplementary_bounds hlead htrail
      rw [← Option.some.inj h]
      exact Or.inr (not_trail_of_supplementary hbounds.1 hbounds.2).2
    · exact Or.inl (Option.some.inj h).symm

theorem separate_join {escape : Bool} {ws : List Written} (h : AsWritten escape ws) :
    Separate (join ws) := by
  induction ws using join.induct with
  | case1 => exact trivial
  | case2 w =>
    obtain ⟨htext, hle⟩ := h w List.mem_cons_self
    refine ⟨?_, fun v hv => ?_, trivial⟩
    · rw [htext]
      exact token_appendToPat escape hle
    · cases hv
  | case3 w v ws hjoin ih =>
    obtain ⟨htext, hle⟩ := h w List.mem_cons_self
    obtain ⟨htext', hle'⟩ := h v (List.mem_cons_of_mem _ List.mem_cons_self)
    obtain ⟨hlead, -, htrail⟩ := joins_ranges hjoin hle hle'
    have hbounds := u16GetSupplementary_bounds hlead htrail
    rw [join, if_pos hjoin]
    refine ⟨?_, fun u _ => ?_, ih fun u hu =>
      h u (List.mem_cons_of_mem _ (List.mem_cons_of_mem _ hu))⟩
    · rw [htext, htext']
      exact token_pair escape hlead htrail
    · rw [joins, (not_trail_of_supplementary hbounds.1 hbounds.2).1]
      rfl
  | case4 w v ws hjoin ih =>
    obtain ⟨htext, hle⟩ := h w List.mem_cons_self
    have htail : AsWritten escape (v :: ws) := fun u hu => h u (List.mem_cons_of_mem _ hu)
    rw [join, if_neg hjoin]
    refine ⟨?_, fun u hu => ?_, ih htail⟩
    · rw [htext]
      exact token_appendToPat escape hle
    rcases join_head htail hu with rfl | htrail
    · exact Bool.not_eq_true _ ▸ hjoin
    · rw [joins, htrail, Bool.and_false]

theorem joins_eq_false {w v : Written} (h : joins w v = false) (hlead : u16IsLead w.c = true) :
    v.hyphen = true ∨ u16IsTrail v.c = false := by
  rw [joins, hlead, Bool.true_and, Bool.and_eq_false_iff, Bool.not_eq_false'] at h
  exact h

/-- Separate characters do not join with a lead surrogate before them. -/
theorem noJoin_unitsOfAll {ws : List Written} (hws : Separate ws)
    (hhead : ∀ v, ws.head? = some v → v.hyphen = true ∨ u16IsTrail v.c = false)
    {rest : List UInt16} (hrest : NoJoin rest) : NoJoin (unitsOfAll ws ++ rest) := by
  induction ws with
  | nil => exact hrest
  | cons w ws ih =>
    obtain ⟨htoken, hnext, htail⟩ := hws
    rw [unitsOfAll_cons, List.append_assoc]
    by_cases hw : w.hyphen = true
    · rw [Written.units, if_pos hw, List.cons_append]
      exact noJoin_unit (by decide) (by decide) _
    have htrail := (hhead w rfl).resolve_left hw
    rw [Written.units, if_neg hw]
    refine htoken.noJoin htrail fun hlead => (ih htail fun v hv => ?_).headFree
    exact joins_eq_false (hnext v hv) hlead

theorem endFree_append {pre text : List UInt16} (hne : text ≠ []) (h : EndFree text) :
    EndFree (pre ++ text) := by
  intro u hu
  rw [List.getLast?_append_of_ne_nil _ hne] at hu
  exact h u hu

structure Tracks (s : ParseState) (a : State Int) : Prop where
  mode : s.mode = .between
  denotes : Denotes s.set a.set
  op : s.op = if a.hyphen then .hyphen else .none
  none : a.last = none → s.lastItem = .none ∧ a.hyphen = false
  char : ∀ l, a.last = some l → s.lastItem = .char ∧ s.lastChar = l ∧ l ∈ UnicodeSet.codePoints

theorem pinnedRange_eq {l c : Int} (hl : l ∈ UnicodeSet.codePoints)
    (hc : c ∈ UnicodeSet.codePoints) :
    pinnedRange l c = Set.Icc l c := by
  rw [pinnedRange, pinCodePoint_eq hl.1 hl.2, pinCodePoint_eq hc.1 hc.2]
  rfl

theorem natCast_mem_codePoints {c : Nat} (h : c ≤ 0x10ffff) :
    (c : Int) ∈ UnicodeSet.codePoints := by
  unfold UnicodeSet.codePoints minValue maxValue
  rw [Set.mem_ofPred_eq]
  omega

theorem parseLiteral_tracks {s : ParseState} {a : State Int} (h : Tracks s a) {c : Nat}
    (hc : c ≤ 0x10ffff) :
    (∀ a', a.read (.char c) = some a' → ∃ s', parseLiteral s c = .ok s' ∧ Tracks s' a' ∧
      s'.pos = s.pos ∧ s'.invert = s.invert) ∧
    (a.read (.char c) = none → ∃ e, parseLiteral s c = .error e) := by
  have hmem := natCast_mem_codePoints hc
  cases hlast : a.last with
  | none =>
    obtain ⟨hitem, hhyphen⟩ := h.none hlast
    have hop := h.op
    rw [hhyphen] at hop
    simp only [State.read, hlast, parseLiteral, hitem]
    refine ⟨fun a' ha => ?_, fun ha => by cases ha⟩
    cases ha
    refine ⟨_, rfl, ⟨h.mode, h.denotes, hop, fun hn => ?_, fun l hl => ?_⟩, rfl, rfl⟩
    · cases hn
    · exact ⟨rfl, Option.some.inj hl, Option.some.inj hl ▸ hmem⟩
  | some l =>
    obtain ⟨hitem, hchar, hl⟩ := h.char l hlast
    have hop := h.op
    simp only [State.read, hlast, parseLiteral, hitem, hchar]
    cases hhyphen : a.hyphen with
    | true =>
      rw [hhyphen, if_pos rfl] at hop
      rw [if_pos hop]
      simp only [if_true]
      by_cases hlt : l < c
      · obtain ⟨out, hout, hd⟩ := h.denotes.addRange l c
        rw [pinnedRange_eq hl hmem] at hd
        rw [if_pos hlt, if_neg (by omega), hout]
        refine ⟨fun a' ha => ?_, fun ha => by cases ha⟩
        cases ha
        refine ⟨_, rfl, ⟨h.mode, hd, rfl, fun _ => ⟨rfl, rfl⟩, fun l hl => ?_⟩, rfl, rfl⟩
        cases hl
      · rw [if_neg hlt, if_pos (by omega)]
        exact ⟨fun a' ha => (by cases ha), fun _ => ⟨_, rfl⟩⟩
    | false =>
      rw [hhyphen, if_neg Bool.false_ne_true] at hop
      obtain ⟨out, hout, hd⟩ := h.denotes.addRange l l
      rw [pinnedRange_eq hl hl, Set.Icc_self] at hd
      simp only [Bool.false_eq_true, if_false]
      rw [if_neg (by rw [hop]; decide), hout]
      refine ⟨fun a' ha => ?_, fun ha => by cases ha⟩
      cases ha
      refine ⟨_, rfl, ⟨h.mode, hd, hop, fun hn => ?_, fun l hl => ?_⟩, rfl, rfl⟩
      · cases hn
      · exact ⟨rfl, Option.some.inj hl, Option.some.inj hl ▸ hmem⟩

section Rounds

variable (propertyPattern : List UInt16 → Except UErrorCode (UnicodeSet × Nat))
  (nestedPattern : Nat → Except Failure (UnicodeSet × Nat)) {pre rest : List UInt16}
    {s : ParseState}

theorem parseChar_literal (text : List UInt16) (s : ParseState) {c : Nat} (hc : c ∉ syntaxChars) :
    parseChar text s c = parseLiteral s c := by
  simp only [syntaxChars, List.mem_cons, List.not_mem_nil, or_false, not_or] at hc
  rw [parseChar, if_neg (by omega), if_neg (by omega), if_neg (by omega), if_neg (by omega),
    if_neg (by omega), if_neg (by omega)]

theorem parseStep_token {text : List UInt16} {c : Nat} (htoken : Token text c)
    (hpos : s.pos = pre.length) (hmode : s.mode = .between)
    (hlead : u16IsLead c = true → NoJoin rest)
    (htrail : u16IsTrail c = true → EndFree pre) :
    parseStep propertyPattern nestedPattern (pre ++ (text ++ rest)) s =
      parseLiteral { s with pos := pre.length + text.length } c := by
  obtain ⟨isEscaped, hnext, hplain, hresembles⟩ := htoken.reads hlead htrail
  have hbracket : ¬ ((c : Int) = 0x5b ∧ (!isEscaped) = true) := by
    rintro ⟨hc, hesc⟩
    refine hplain (by simpa using hesc) ?_
    rw [show c = 0x5b by omega]
    decide
  rw [parseStep, hpos, hresembles, hnext]
  simp only [Bool.false_eq_true, if_false, bind, Except.bind]
  rw [if_neg hbracket, if_neg (by rw [hmode]; decide)]
  cases isEscaped with
  | true => rfl
  | false => exact parseChar_literal _ _ (hplain rfl)

theorem parseStep_other {u : UInt16} (hu : u ∈ [0x2d, 0x7b, 0x5d]) (hpos : s.pos = pre.length)
    (hmode : s.mode = .between) : parseStep propertyPattern nestedPattern (pre ++ u :: rest) s =
      parseChar (pre ++ u :: rest) { s with pos := pre.length + 1 } u.toNat := by
  have hfacts : ∀ u ∈ ([0x2d, 0x7b, 0x5d] : List UInt16), u.toNat < 0x80 ∧
      isWhiteSpace u.toNat = false ∧ u.toNat ≠ 0x5c ∧ u.toNat ≠ 0x5b ∧ u16IsLead u.toNat = false ∧
      u16IsTrail u.toNat = false := List.all_iff_forall_prop.mp (by decide)
  obtain ⟨hlt, hspace, hback, hopen, hlead, htrail⟩ := hfacts u hu
  have hnext := @next_unitsOf pre rest u.toNat (by omega) hspace hback
    (fun h => by rw [hlead] at h; cases h) (fun h => by rw [htrail] at h; cases h)
  rw [unitsOf_toNat, List.singleton_append, List.length_singleton] at hnext
  have hresembles : resemblesPropertyPattern (pre ++ u :: rest) pre.length = false := by
    rw [resemblesPropertyPattern, nextChar_ascii hlt (fun _ => hspace)]
    dsimp only
    rw [if_neg (by omega)]
  rw [parseStep, hpos, hresembles, hnext]
  simp only [Bool.false_eq_true, if_false, bind, Except.bind]
  rw [if_neg (by omega), if_neg (by rw [hmode]; decide)]

theorem parseLoop_step {text : List UInt16} {s s' : ParseState} {fuel : Nat}
    (hmode : s.mode = .between) (hlt : s.pos < text.length) (hfuel : text.length < fuel + s.pos)
    (hstep : parseStep propertyPattern nestedPattern text s = .ok s') (hpos : s.pos < s'.pos) :
    ∃ fuel', parseLoop propertyPattern nestedPattern text fuel s =
        parseLoop propertyPattern nestedPattern text fuel' s' ∧ text.length < fuel' + s'.pos := by
  obtain ⟨fuel, rfl⟩ : ∃ n, fuel = n + 1 := ⟨fuel - 1, by omega⟩
  refine ⟨fuel, ?_, by omega⟩
  have hgo : ¬ (s.mode = .after ∨ atEnd text s.pos = true) := by
    rw [hmode, atEnd, beq_iff_eq]
    rintro (h | h)
    · cases h
    · omega
  rw [parseLoop, if_neg hgo, hstep]
  rfl

theorem parseLoop_error {text : List UInt16} {s : ParseState} {fuel : Nat} {e : Failure}
    (hmode : s.mode = .between) (hlt : s.pos < text.length) (hfuel : text.length < fuel + s.pos)
    (hstep : parseStep propertyPattern nestedPattern text s = .error e) :
    parseLoop propertyPattern nestedPattern text fuel s = .error e := by
  obtain ⟨fuel, rfl⟩ : ∃ n, fuel = n + 1 := ⟨fuel - 1, by omega⟩
  have hgo : ¬ (s.mode = .after ∨ atEnd text s.pos = true) := by
    rw [hmode, atEnd, beq_iff_eq]
    rintro (h | h)
    · cases h
    · omega
  rw [parseLoop, if_neg hgo, hstep]
  rfl

theorem parseChar_hyphen {text : List UInt16} {a : State Int} (h : Tracks s a)
    (hnext : ∃ x, next text s.pos = .ok x ∧ ¬ (x.c = 0x5d ∧ (!x.isEscaped) = true)) :
    (∀ a', a.read .hyphen = some a' → ∃ s', parseChar text s 0x2d = .ok s' ∧ Tracks s' a' ∧
      s'.pos = s.pos ∧ s'.invert = s.invert) ∧
    (a.read .hyphen = none → ∃ e, parseChar text s 0x2d = .error e) := by
  have hop := h.op
  cases hlast : a.last with
  | none =>
    obtain ⟨hitem, hhyphen⟩ := h.none hlast
    obtain ⟨out, hout, -⟩ := h.denotes.addRange 0x2d 0x2d
    obtain ⟨x, hx, hclose⟩ := hnext
    rw [hhyphen, if_neg Bool.false_ne_true] at hop
    simp only [State.read, hlast, Option.isSome_none, Bool.false_and, Bool.false_eq_true, if_false]
    refine ⟨fun a' ha => (by cases ha), fun _ => ⟨.error .malformedSet x.pos, ?_⟩⟩
    rw [parseChar, if_neg (by decide), if_pos rfl, if_pos hop, if_neg (by rw [hitem]; decide), hout]
    simp only [lift, bind, Except.bind, hx]
    rw [if_neg hclose]
    rfl
  | some l =>
    obtain ⟨hitem, hchar, hl⟩ := h.char l hlast
    rw [parseChar, if_neg (by decide), if_pos rfl]
    cases hhyphen : a.hyphen with
    | true =>
      rw [hhyphen, if_pos rfl] at hop
      rw [if_neg (by rw [hop]; decide)]
      simp only [State.read, hhyphen, Bool.not_true, Bool.and_false, Bool.false_eq_true, if_false]
      exact ⟨fun a' ha => (by cases ha), fun _ => ⟨_, rfl⟩⟩
    | false =>
      rw [hhyphen, if_neg Bool.false_ne_true] at hop
      rw [if_pos hop, if_pos (by rw [hitem]; decide)]
      simp only [State.read, hlast, hhyphen, Option.isSome_some, Bool.not_false, Bool.and_self,
        if_true]
      refine ⟨fun a' ha => ?_, fun ha => by cases ha⟩
      cases ha
      refine ⟨_, rfl, ⟨h.mode, h.denotes, rfl, fun hn => ?_, fun c hc => ?_⟩, rfl, rfl⟩
      · cases hn
      cases hc
      exact ⟨hitem, hchar, hl⟩

structure Reached (text : List UInt16) (fuel : Nat) (s : ParseState) (a : State Int) (pos : Nat)
    (fuel' : Nat) (s' : ParseState) : Prop where
  loop : parseLoop propertyPattern nestedPattern text fuel s =
    parseLoop propertyPattern nestedPattern text fuel' s'
  tracks : Tracks s' a
  pos : s'.pos = pos
  invert : s'.invert = s.invert
  fuel : text.length < fuel' + s'.pos

theorem Tracks.setPos {a : State Int} (h : Tracks s a) (pos : Nat) : Tracks { s with pos } a :=
  ⟨h.mode, h.denotes, h.op, h.none, h.char⟩

theorem parseLoop_char {text : List UInt16} {c : Nat} (htoken : Token text c) {a : State Int}
    (htracks : Tracks s a) (hpos : s.pos = pre.length) (hlead : u16IsLead c = true → NoJoin rest)
    (htrail : u16IsTrail c = true → EndFree pre) {fuel : Nat}
    (hfuel : (pre ++ (text ++ rest)).length < fuel + s.pos) :
    (∀ a', a.read (.char c) = some a' → ∃ fuel' s', Reached propertyPattern nestedPattern
      (pre ++ (text ++ rest)) fuel s a' (pre ++ text).length fuel' s') ∧
    (a.read (.char c) = none →
      ∃ e, parseLoop propertyPattern nestedPattern (pre ++ (text ++ rest)) fuel s = .error e) := by
  have hstep := parseStep_token propertyPattern nestedPattern htoken hpos htracks.mode hlead htrail
  have hparse := parseLiteral_tracks (htracks.setPos (pre.length + text.length)) htoken.le
  have hlen := List.length_pos_iff.mpr htoken.ne_nil
  have hlt : s.pos < (pre ++ (text ++ rest)).length := by
    rw [hpos, List.length_append, List.length_append]
    omega
  refine ⟨fun a' ha => ?_, fun ha => ?_⟩
  · obtain ⟨s', hs', htracks', hpos', hinvert⟩ := hparse.1 a' ha
    dsimp only at hpos'
    obtain ⟨fuel', hloop, hfuel'⟩ :=
      parseLoop_step propertyPattern nestedPattern htracks.mode hlt hfuel
      (hstep.trans hs') (by omega)
    refine ⟨fuel', s', hloop, htracks', ?_, hinvert, hfuel'⟩
    rw [hpos', List.length_append]
  · obtain ⟨e, he⟩ := hparse.2 ha
    exact ⟨e, parseLoop_error propertyPattern nestedPattern htracks.mode hlt hfuel (hstep.trans he)⟩

theorem parseLoop_hyphen {text : List UInt16} {c : Nat} (htoken : Token text c) {a : State Int}
    (htracks : Tracks s a) (hpos : s.pos = pre.length) (hlead : u16IsLead c = true → NoJoin rest)
    {fuel : Nat} (hfuel : (pre ++ 0x2d :: (text ++ rest)).length < fuel + s.pos) :
    (∀ a', a.read .hyphen = some a' → ∃ fuel' s', Reached propertyPattern nestedPattern
      (pre ++ 0x2d :: (text ++ rest)) fuel s a' (pre ++ [0x2d]).length fuel' s') ∧
    (a.read .hyphen = none →
      ∃ e, parseLoop propertyPattern nestedPattern (pre ++ 0x2d :: (text ++ rest)) fuel s =
      .error e) := by
  have hstep := @parseStep_other propertyPattern nestedPattern pre (text ++ rest) s 0x2d (by decide)
    hpos htracks.mode
  have hnext : ∃ x, next (pre ++ 0x2d :: (text ++ rest)) (pre.length + 1) = .ok x ∧
      ¬ (x.c = 0x5d ∧ (!x.isEscaped) = true) := by
    obtain ⟨isEscaped, hnext, hplain, -⟩ := @Token.reads _ _ htoken (pre ++ [0x2d]) rest hlead
      (fun _ => endFree_append (List.cons_ne_nil _ _) (by
        intro u hu
        rw [← Option.some.inj hu]
        decide))
    rw [List.append_assoc, List.singleton_append, List.length_append,
      List.length_singleton] at hnext
    refine ⟨_, hnext, ?_⟩
    rintro ⟨hc, hesc⟩
    refine hplain (by simpa using hesc) ?_
    dsimp only at hc
    rw [show c = 0x5d by omega]
    decide
  have hparse := parseChar_hyphen (htracks.setPos (pre.length + 1)) hnext
  have hlt : s.pos < (pre ++ 0x2d :: (text ++ rest)).length := by
    rw [hpos, List.length_append, List.length_cons]
    omega
  refine ⟨fun a' ha => ?_, fun ha => ?_⟩
  · obtain ⟨s', hs', htracks', hpos', hinvert⟩ := hparse.1 a' ha
    dsimp only at hpos'
    obtain ⟨fuel', hloop, hfuel'⟩ :=
      parseLoop_step propertyPattern nestedPattern htracks.mode hlt hfuel
      (hstep.trans hs') (by omega)
    refine ⟨fuel', s', hloop, htracks', ?_, hinvert, hfuel'⟩
    rw [hpos', List.length_append, List.length_singleton]
  · obtain ⟨e, he⟩ := hparse.2 ha
    exact ⟨e, parseLoop_error propertyPattern nestedPattern htracks.mode hlt hfuel (hstep.trans he)⟩

/-- What the loop does with some characters: the rest of the text is read from the state of the
notation, or there is an error. -/
def Reads (text : List UInt16) (fuel : Nat) (s : ParseState) (pos : Nat) : Option (State Int) → Prop
  | some a => ∃ fuel' s', Reached propertyPattern nestedPattern text fuel s a pos fuel' s'
  | none => ∃ e, parseLoop propertyPattern nestedPattern text fuel s = .error e

theorem Reads.after {text : List UInt16} {fuel fuel₁ pos pos' : Nat} {s s₁ : ParseState}
    {a : State Int} {o : Option (State Int)}
    (h : Reads propertyPattern nestedPattern text fuel₁ s₁ pos' o)
    (hreached : Reached propertyPattern nestedPattern text fuel s a pos fuel₁ s₁) :
    Reads propertyPattern nestedPattern text fuel s pos' o := by
  cases o with
  | none =>
    obtain ⟨e, he⟩ := h
    exact ⟨e, hreached.loop.trans he⟩
  | some a' =>
    obtain ⟨fuel₂, s₂, h⟩ := h
    exact ⟨fuel₂, s₂, hreached.loop.trans h.loop, h.tracks, h.pos, h.invert.trans hreached.invert,
      h.fuel⟩

theorem parseLoop_written {ws : List Written} (hws : Separate ws) (hrest : NoJoin rest)
    {pre : List UInt16} {s : ParseState} {a : State Int} {fuel : Nat}
    (hpre : ∀ v, ws.head? = some v → v.hyphen = false → u16IsTrail v.c = true → EndFree pre)
    (htracks : Tracks s a) (hpos : s.pos = pre.length)
    (hfuel : (pre ++ (unitsOfAll ws ++ rest)).length < fuel + s.pos) :
    Reads propertyPattern nestedPattern (pre ++ (unitsOfAll ws ++ rest)) fuel s
      (pre ++ unitsOfAll ws).length (a.run (itemsOfAll ws)) := by
  induction ws generalizing pre s a fuel with
  | nil =>
    refine ⟨fuel, s, rfl, htracks, ?_, rfl, hfuel⟩
    rw [hpos]
    simp [unitsOfAll]
  | cons w ws ih =>
    obtain ⟨htoken, hnext, htail⟩ := hws
    have hlead : u16IsLead w.c = true → NoJoin (unitsOfAll ws ++ rest) := fun hlead =>
      noJoin_unitsOfAll htail (fun v hv => joins_eq_false (hnext v hv) hlead) hrest
    have hend : ∀ v, ws.head? = some v → v.hyphen = false → u16IsTrail v.c = true →
        EndFree w.text := by
      intro v hv hhyphen htrail
      refine htoken.endFree ?_
      rw [← Bool.not_eq_true]
      intro hl
      rcases joins_eq_false (hnext v hv) hl with h | h
      · rw [hhyphen] at h
        cases h
      · rw [htrail] at h
        cases h
    -- The character itself, then the rest by induction.
    have hchar : ∀ {pre : List UInt16} {s : ParseState} {a : State Int} {fuel : Nat},
        (u16IsTrail w.c = true → EndFree pre) → Tracks s a → s.pos = pre.length →
        (pre ++ (w.text ++ (unitsOfAll ws ++ rest))).length < fuel + s.pos →
        Reads propertyPattern nestedPattern (pre ++ (w.text ++ (unitsOfAll ws ++ rest))) fuel s
          (pre ++ (w.text ++ unitsOfAll ws)).length (a.run (.char w.c :: itemsOfAll ws)) := by
      intro pre s a fuel htrail htracks hpos hfuel
      have hone := parseLoop_char propertyPattern nestedPattern htoken htracks hpos hlead htrail
        hfuel
      rw [State.run]
      cases hread : a.read (.char w.c) with
      | none => exact hone.2 hread
      | some a₁ =>
        obtain ⟨fuel₁, s₁, hreached⟩ := hone.1 a₁ hread
        have hrec := @ih htail (pre ++ w.text) s₁ a₁ fuel₁
          (fun v hv hh ht => endFree_append htoken.ne_nil (hend v hv hh ht)) hreached.tracks
          hreached.pos (by rw [List.append_assoc]; exact hreached.fuel)
        rw [List.append_assoc, List.append_assoc] at hrec
        exact hrec.after propertyPattern nestedPattern hreached
    cases hw : w.hyphen with
    | false =>
      have hunits : unitsOfAll (w :: ws) = w.text ++ unitsOfAll ws := by
        rw [unitsOfAll_cons, Written.units, hw]
        rfl
      have hitems : itemsOfAll (w :: ws) = .char w.c :: itemsOfAll ws := by
        rw [itemsOfAll, List.flatMap_cons, Written.items, hw]
        rfl
      rw [hunits, List.append_assoc] at hfuel ⊢
      rw [hitems]
      exact hchar (hpre w rfl hw) htracks hpos hfuel
    | true =>
      have hunits : unitsOfAll (w :: ws) = 0x2d :: (w.text ++ unitsOfAll ws) := by
        rw [unitsOfAll_cons, Written.units, hw]
        rfl
      have hitems : itemsOfAll (w :: ws) = .hyphen :: .char w.c :: itemsOfAll ws := by
        rw [itemsOfAll, List.flatMap_cons, Written.items, hw]
        rfl
      rw [hunits, List.cons_append, List.append_assoc] at hfuel ⊢
      rw [hitems, State.run]
      have hone := parseLoop_hyphen propertyPattern nestedPattern htoken htracks hpos hlead hfuel
      cases hread : a.read .hyphen with
      | none => exact hone.2 hread
      | some a₁ =>
        obtain ⟨fuel₁, s₁, hreached⟩ := hone.1 a₁ hread
        have hrec := @hchar (pre ++ [0x2d]) s₁ a₁ fuel₁
          (fun _ => endFree_append (List.cons_ne_nil _ _) (by
            intro u hu
            rw [← Option.some.inj hu]
            decide)) hreached.tracks hreached.pos
          (by rw [List.append_assoc]; exact hreached.fuel)
        rw [List.append_assoc, List.append_assoc, List.singleton_append] at hrec
        exact hrec.after propertyPattern nestedPattern hreached

end Rounds

end Icu.Pattern
