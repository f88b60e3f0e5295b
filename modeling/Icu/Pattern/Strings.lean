import Icu.Pattern.Items

/-! # Reading the strings and the brackets of a pattern -/

namespace Icu.Pattern

open Utf16 UnicodeSet Lib.RangeNotation

variable {u : UInt16} {fuel : Nat}

/-! ## Strings as they are written -/

def stringWritten (escape : Bool) (cps : List Nat) : List Written :=
  cps.map fun c => ⟨false, appendToPat escape c, c⟩

theorem unitsOfAll_stringWritten_cons (escape : Bool) (c : Nat) (cps : List Nat) :
    unitsOfAll (stringWritten escape (c :: cps)) =
      appendToPat escape c ++ unitsOfAll (stringWritten escape cps) := rfl

/-- Code points that a string can have: no lead surrogate is followed by a trail surrogate. -/
def Unpaired : List Nat → Prop
  | [] => True
  | c :: cps => c ≤ 0x10ffff ∧
      (∀ d, cps.head? = some d → u16IsLead c = true → u16IsTrail d = false) ∧ Unpaired cps

theorem head_codePoints {s : List UInt16} {d : Nat}
    (h : (Utf16.codePoints (u :: s)).head? = some d) : u16IsTrail d = true → d = u.toNat := by
  cases s with
  | nil => exact fun _ => (Option.some.inj h).symm
  | cons u2 s =>
    rw [Utf16.codePoints] at h
    split at h
    · next hpair =>
      have hu := u.toNat_lt
      have hu2 := u2.toNat_lt
      rw [Bool.and_eq_true, u16IsLead_iff (by omega), u16IsTrail_iff (by omega)] at hpair
      have hbounds := u16GetSupplementary_bounds hpair.1 hpair.2
      rw [← Option.some.inj h, (not_trail_of_supplementary hbounds.1 hbounds.2).2]
      intro hf
      cases hf
    · exact fun _ => (Option.some.inj h).symm

theorem unpaired_codePoints (s : List UInt16) : Unpaired (Utf16.codePoints s) := by
  induction s using Utf16.codePoints.induct with
  | case1 => exact trivial
  | case2 u =>
    have hu := u.toNat_lt
    refine ⟨by omega, fun d hd => ?_, trivial⟩
    cases hd
  | case3 u u2 s hpair ih =>
    have hu := u.toNat_lt
    have hu2 := u2.toNat_lt
    rw [Utf16.codePoints, if_pos hpair]
    rw [Bool.and_eq_true, u16IsLead_iff (by omega), u16IsTrail_iff (by omega)] at hpair
    have hbounds := u16GetSupplementary_bounds hpair.1 hpair.2
    refine ⟨hbounds.2, fun d _ hlead => ?_, ih⟩
    rw [(not_trail_of_supplementary hbounds.1 hbounds.2).1] at hlead
    cases hlead
  | case4 u u2 s hpair ih =>
    have hu := u.toNat_lt
    rw [Utf16.codePoints, if_neg hpair]
    refine ⟨by omega, fun d hd hlead => ?_, ih⟩
    rw [← Bool.not_eq_true]
    intro htrail
    rw [head_codePoints hd htrail] at htrail
    exact hpair (by rw [hlead, htrail]; rfl)

theorem separate_stringWritten (escape : Bool) {cps : List Nat} (h : Unpaired cps) :
    Separate (stringWritten escape cps) := by
  induction cps with
  | nil => exact trivial
  | cons c cps ih =>
    obtain ⟨hle, hnext, htail⟩ := h
    refine ⟨token_appendToPat escape hle, fun v hv => ?_, ih htail⟩
    cases cps with
    | nil => cases hv
    | cons d cps =>
      cases hv
      rw [← Bool.not_eq_true]
      intro hjoin
      rw [joins, Bool.and_eq_true, Bool.and_eq_true, hnext d rfl hjoin.1.1] at hjoin
      cases hjoin.2

theorem appendStringToPat_eq (escape : Bool) {cps : List Nat} (h : Unpaired cps) {pre : List UInt16}
    (hpre : ∀ d, cps.head? = some d → u16IsTrail d = true → EndFree pre) {fuel : Nat}
    (hfuel : (utf16 cps).length ≤ fuel) :
    appendStringToPat escape (pre ++ utf16 cps) fuel pre.length =
      unitsOfAll (stringWritten escape cps) := by
  induction cps generalizing pre fuel with
  | nil =>
    cases fuel with
    | zero => rfl
    | succ fuel =>
      rw [appendStringToPat, if_neg (by simp)]
      rfl
  | cons c cps ih =>
    obtain ⟨hle, hnext, htail⟩ := h
    have hpos := List.length_pos_iff.mpr (unitsOf_ne_nil c)
    rw [utf16_cons, List.length_append] at hfuel
    obtain ⟨fuel, rfl⟩ : ∃ n, fuel = n + 1 := ⟨fuel - 1, by omega⟩
    have hhead : u16IsLead c = true → HeadFree (utf16 cps) := by
      intro hlead
      cases cps with
      | nil =>
        intro u hu
        cases hu
      | cons d cps => exact headFree_unitsOf htail.1 (hnext d rfl hlead) _
    have hget := @u16Get_unitsOf pre (utf16 cps) c hle hhead (hpre c rfl)
    have hlen : pre.length < (pre ++ (unitsOf c ++ utf16 cps)).length := by
      rw [List.length_append, List.length_append]
      omega
    have hrec := @ih htail (pre ++ unitsOf c) (fun d hd htrail => by
      refine endFree_append (unitsOf_ne_nil c) (endFree_unitsOf ?_)
      rw [← Bool.not_eq_true]
      intro hlead
      rw [hnext d hd hlead] at htrail
      cases htrail) fuel (by omega)
    rw [List.append_assoc, List.length_append, length_unitsOf] at hrec
    rw [utf16_cons, appendStringToPat, if_pos hlen, hget]
    dsimp only [Option.getD_some]
    rw [hrec, unitsOfAll_stringWritten_cons]

theorem appendStringToPat_codePoints (escape : Bool) (s : List UInt16) :
    appendStringToPat escape s s.length 0 =
      unitsOfAll (stringWritten escape (Utf16.codePoints s)) := by
  have h := @appendStringToPat_eq escape _ (unpaired_codePoints s) []
    (fun d _ _ u hu => by cases hu)
    s.length (by rw [utf16_codePoints])
  rwa [List.nil_append, utf16_codePoints] at h

theorem noJoin_close (rest : List UInt16) :
    NoJoin (0x7d :: rest) := noJoin_unit (by decide) (by decide) _

theorem next_close (pre rest : List UInt16) :
    next (pre ++ 0x7d :: rest) pre.length = .ok ⟨0x7d, false, pre.length + 1⟩ := by
  have h := @next_unitsOf pre rest 0x7d (by decide) (by decide) (by decide)
    (fun h => absurd h (by decide)) (fun h => absurd h (by decide))
  exact h

theorem readString_stringWritten (escape : Bool) {cps : List Nat} (h : Unpaired cps)
    {pre rest buf : List UInt16}
    (hpre : ∀ d, cps.head? = some d → u16IsTrail d = true → EndFree pre)
    (hne : buf ++ utf16 cps ≠ []) {fuel : Nat} (hfuel : cps.length < fuel) :
    readString (pre ++ (unitsOfAll (stringWritten escape cps) ++ 0x7d :: rest)) fuel pre.length
      buf =
      .ok (buf ++ utf16 cps, (pre ++ unitsOfAll (stringWritten escape cps)).length + 1) := by
  induction cps generalizing pre buf fuel with
  | nil =>
    obtain ⟨fuel, rfl⟩ : ∃ n, fuel = n + 1 := ⟨fuel - 1, by omega⟩
    have hunits : unitsOfAll (stringWritten escape []) = [] := rfl
    have hend : ¬ atEnd (pre ++ 0x7d :: rest) pre.length = true := by
      rw [atEnd, beq_iff_eq, List.length_append, List.length_cons]
      omega
    have hbuf : ¬ buf.length < 1 := by
      rw [utf16_nil, List.append_nil] at hne
      have := List.length_pos_iff.mpr hne
      omega
    rw [hunits, List.nil_append, List.append_nil, utf16_nil, List.append_nil, readString,
      if_neg hend,
      next_close]
    dsimp only [bind, Except.bind]
    rw [if_pos ⟨rfl, rfl⟩, if_neg hbuf]
  | cons c cps ih =>
    have hsep := separate_stringWritten escape h
    obtain ⟨hle, hnext, htail⟩ := h
    obtain ⟨htoken, hjoin, hseptail⟩ := hsep
    obtain ⟨fuel, rfl⟩ : ∃ n, fuel = n + 1 := ⟨fuel - 1, by omega⟩
    have hlead : u16IsLead c = true →
        NoJoin (unitsOfAll (stringWritten escape cps) ++ 0x7d :: rest) := fun hlead =>
      noJoin_unitsOfAll hseptail (fun v hv => joins_eq_false (hjoin v hv) hlead) (noJoin_close rest)
    obtain ⟨isEscaped, hread, hplain, -⟩ := @Token.reads _ _ htoken pre _ hlead (hpre c rfl)
    have hend : ¬ atEnd (pre ++ (appendToPat escape c ++
        (unitsOfAll (stringWritten escape cps) ++ 0x7d :: rest))) pre.length = true := by
      rw [atEnd, beq_iff_eq, List.length_append, List.length_append, List.length_append,
        List.length_cons]
      omega
    have hbrace : ¬ ((c : Int) = 0x7d ∧ (!isEscaped) = true) := by
      rintro ⟨hc, hesc⟩
      have hmem : c ∉ syntaxChars := hplain (by simpa using hesc)
      rw [show c = 0x7d by omega] at hmem
      exact hmem (by decide)
    have happend : appendChar buf c = buf ++ unitsOf c := by
      rw [appendChar, if_pos (by omega), Int.toNat_natCast]
    have hrec := @ih htail (pre ++ appendToPat escape c) (buf ++ unitsOf c) (fun d hd htrail => by
      refine endFree_append htoken.ne_nil (htoken.endFree ?_)
      rw [← Bool.not_eq_true]
      intro hl
      rw [hnext d hd hl] at htrail
      cases htrail) (by rw [List.append_assoc]; exact hne) fuel
        (by rw [List.length_cons] at hfuel; omega)
    rw [List.append_assoc, List.append_assoc, List.append_assoc, List.length_append] at hrec
    rw [unitsOfAll_stringWritten_cons, List.append_assoc, readString, if_neg hend, hread]
    dsimp only [bind, Except.bind]
    rw [if_neg hbrace, happend, hrec, utf16_cons]

theorem sortedInsertIndex_end {strings : List (List UInt16)} {e : List UInt16}
    (h : ∀ s ∈ strings, s < e) {min : Nat} (hmin : min ≤ strings.length)
    (hfuel : strings.length - min ≤ fuel) :
    sortedInsertIndex strings e fuel min strings.length = some strings.length := by
  induction fuel generalizing min with
  | zero => rw [sortedInsertIndex, show min = strings.length by omega]
  | succ fuel ih =>
    rw [sortedInsertIndex]
    by_cases heq : min = strings.length
    · rw [if_pos heq, heq]
    have hprobe : (min + strings.length) / 2 < strings.length := by omega
    have hlt := h _ (List.getElem_mem hprobe)
    rw [if_neg heq]
    simp only [List.getElem?_eq_getElem hprobe]
    rw [compareUnicodeString, if_pos hlt, if_neg (by decide)]
    exact ih (by omega) (by omega)

theorem addString_end {set : UnicodeSet} {str : List UInt16} (hfrozen : set.isFrozen = false)
    (hbogus : set.isBogus = false) (hne : str ≠ []) (hsingle : getSingleCP str < 0)
    (h : ∀ s ∈ set.strings, s < str) :
    addString set str = some { set with strings := set.strings ++ [str] } := by
  have hlen := List.length_pos_iff.mpr hne
  have hmem : str ∉ set.strings := fun hmem => List.lt_irrefl _ (h str hmem)
  have hstop : ¬ (str.length = 0 ∨ set.isFrozen = true ∨ set.isBogus = true) := by
    rw [hfrozen, hbogus]
    rintro (h | h | h)
    · omega
    · cases h
    · cases h
  rw [addString, if_neg hstop, if_pos hsingle, if_neg hmem, addToStrings, hfrozen, hbogus,
    sortedInsert,
    sortedInsertIndex_end h (Nat.zero_le _) (by omega)]
  simp

/-! ## Rounds of the loop -/

/-- The set with its code points only. -/
def withoutStrings (set : UnicodeSet) : UnicodeSet := { set with strings := [] }

/-- What the set will be when the pending character has been added. -/
structure Pending (s : ParseState) (D : Set Int) (strings : List (List UInt16)) : Prop where
  mode : s.mode = .between
  op : s.op = .none
  added : ∃ set, addLastChar s = .ok set ∧ set.strings = strings ∧ Denotes (withoutStrings set) D

theorem Tracks.pending {s : ParseState} {a : State Int} (h : Tracks s a)
    (hhyphen : a.hyphen = false) :
    Pending s a.total [] where
  mode := h.mode
  op := by rw [h.op, hhyphen]; rfl
  added := by
    have hwithout : ∀ {set D}, Denotes set D → set.strings = [] ∧
      Denotes (withoutStrings set) D := by
      intro set D hd
      have hempty := hd.codePointSet.strings
      refine ⟨hempty, ?_⟩
      rw [withoutStrings, ← hempty]
      exact hd
    cases hlast : a.last with
    | none =>
      have htotal : a.total = a.set := by
        rw [State.total, hlast]
        simp
      rw [addLastChar, if_neg (by rw [(h.none hlast).1]; decide), htotal]
      exact ⟨s.set, rfl, hwithout h.denotes⟩
    | some l =>
      obtain ⟨hitem, hchar, hl⟩ := h.char l hlast
      obtain ⟨out, hout, hd⟩ := h.denotes.addRange l l
      rw [pinnedRange_eq hl hl, ← State.total_of_last hlast] at hd
      rw [addLastChar, if_pos hitem, hchar, hout]
      exact ⟨out, rfl, hwithout hd⟩

section Rounds

variable (propertyPattern : List UInt16 → Except UErrorCode (UnicodeSet × Nat))
  (nestedPattern : Nat → Except Failure (UnicodeSet × Nat)) {pre rest : List UInt16}
  {s : ParseState} {D : Set Int} {strings : List (List UInt16)} {text : List UInt16} {c : Nat}

def bracedString (escape : Bool) (str : List UInt16) : List UInt16 :=
  0x7b :: appendStringToPat escape str str.length 0 ++ [0x7d]

theorem length_codePoints_le (escape : Bool) (s : List UInt16) :
    (Utf16.codePoints s).length ≤ (appendStringToPat escape s s.length 0).length := by
  have hunpaired := unpaired_codePoints s
  rw [appendStringToPat_codePoints]
  generalize Utf16.codePoints s = cps at hunpaired
  induction cps with
  | nil => exact Nat.zero_le _
  | cons c cps ih =>
    have htoken := token_appendToPat escape hunpaired.1
    have hpos := List.length_pos_iff.mpr htoken.ne_nil
    have hrec := ih hunpaired.2.2
    rw [unitsOfAll_stringWritten_cons, List.length_append, List.length_cons]
    omega

theorem parseLoop_string (escape : Bool) {str : List UInt16} (hne : str ≠ [])
    (hsingle : getSingleCP str < 0) (hless : ∀ s ∈ strings, s < str)
    (hpending : Pending s D strings)
    (hpos : s.pos = pre.length)
    (hfuel : (pre ++ (bracedString escape str ++ rest)).length < fuel + s.pos) :
    ∃ fuel' s', parseLoop propertyPattern nestedPattern
      (pre ++ (bracedString escape str ++ rest)) fuel s =
        parseLoop propertyPattern nestedPattern (pre ++ (bracedString escape str ++ rest)) fuel'
          s' ∧
      Pending s' D (strings ++ [str]) ∧ s'.pos = (pre ++ bracedString escape str).length ∧
      s'.invert = s.invert ∧
        (pre ++ (bracedString escape str ++ rest)).length < fuel' + s'.pos := by
  obtain ⟨set, hset, hstrings, hd⟩ := hpending.added
  have htext : pre ++ (bracedString escape str ++ rest) =
      pre ++ 0x7b :: (appendStringToPat escape str str.length 0 ++ 0x7d :: rest) := by
    simp [bracedString]
  have hlength : (pre ++ bracedString escape str).length =
      pre.length + 1 + (appendStringToPat escape str str.length 0).length + 1 := by
    simp only [bracedString, List.length_append, List.length_cons, List.length_nil]
    omega
  have hopen : (pre ++ [0x7b]).length = pre.length + 1 := by
    rw [List.length_append, List.length_singleton]
  have hread := @readString_stringWritten escape _ (unpaired_codePoints str) (pre ++ [0x7b]) rest []
    (fun d _ _ => endFree_append (List.cons_ne_nil _ _) (by
      intro u hu
      rw [← Option.some.inj hu]
      decide)) (by rw [List.nil_append, utf16_codePoints]; exact hne)
    ((pre ++ (bracedString escape str ++ rest)).length + 1) (by
      have hle := length_codePoints_le escape str
      rw [htext, List.length_append, List.length_cons, List.length_append]
      omega)
  rw [← appendStringToPat_codePoints, List.nil_append, utf16_codePoints, List.append_assoc,
    List.singleton_append, ← htext, hopen, @List.length_append _ (pre ++ [0x7b]), hopen] at hread
  have hadd := @addString_end set _ hd.codePointSet.thawed hd.codePointSet.sound hne hsingle
    (by rw [hstrings]; exact hless)
  have hstep := @parseStep_other propertyPattern nestedPattern pre
    (appendStringToPat escape str str.length 0 ++ 0x7d :: rest) s 0x7b
      (by decide) hpos hpending.mode
  rw [← htext] at hstep
  have hchar : parseChar (pre ++ (bracedString escape str ++ rest)) { s with pos := pre.length + 1 }
      (0x7b : UInt16).toNat = .ok { s with
        set := { set with strings := set.strings ++ [str] }
        pos := pre.length + 1 + (appendStringToPat escape str str.length 0).length + 1
        lastItem := .none } := by
    have hadded : addLastChar { s with pos := pre.length + 1 } = .ok set := hset
    have hop : ¬ ({ s with pos := pre.length + 1 } : ParseState).op ≠ .none := by
      rw [not_not]
      exact hpending.op
    rw [parseChar, if_neg (by decide), if_neg (by decide), if_neg (by decide), if_neg (by decide),
      if_pos (by decide), if_neg hop, hadded]
    simp only [bind, Except.bind, hread, hadd, lift]
    rfl
  have hlt : s.pos < (pre ++ (bracedString escape str ++ rest)).length := by
    rw [hpos, htext, List.length_append, List.length_cons]
    omega
  obtain ⟨fuel', hloop, hfuel'⟩ :=
    parseLoop_step propertyPattern nestedPattern hpending.mode hlt hfuel
    (hstep.trans hchar) (by dsimp only; omega)
  refine ⟨fuel', _, hloop, ⟨hpending.mode, hpending.op, ?_⟩, hlength.symm, rfl, hfuel'⟩
  refine ⟨{ set with strings := set.strings ++ [str] }, rfl, ?_, hd⟩
  rw [← hstrings]

theorem appendStrings_cons (escape : Bool) (str : List UInt16) (strs : List (List UInt16)) :
    appendStrings escape (str :: strs) = bracedString escape str ++ appendStrings escape strs :=
  List.flatMap_cons

theorem parseLoop_strings (escape : Bool) {strs : List (List UInt16)}
    (hstrs : ∀ str ∈ strs, str ≠ [] ∧ getSingleCP str < 0)
    (hsorted : (strings ++ strs).Pairwise (· < ·)) (hpending : Pending s D strings)
    (hpos : s.pos = pre.length) {fuel : Nat}
    (hfuel : (pre ++ (appendStrings escape strs ++ rest)).length < fuel + s.pos) :
    ∃ fuel' s', parseLoop propertyPattern nestedPattern
      (pre ++ (appendStrings escape strs ++ rest)) fuel s =
        parseLoop propertyPattern nestedPattern (pre ++ (appendStrings escape strs ++ rest)) fuel'
          s' ∧
      Pending s' D (strings ++ strs) ∧ s'.pos = (pre ++ appendStrings escape strs).length ∧
      s'.invert = s.invert ∧
        (pre ++ (appendStrings escape strs ++ rest)).length < fuel' + s'.pos := by
  induction strs generalizing pre s strings fuel with
  | nil =>
    refine ⟨fuel, s, rfl, ?_, ?_, rfl, hfuel⟩
    · rw [List.append_nil]
      exact hpending
    · rw [hpos]
      simp [appendStrings]
  | cons str strs ih =>
    obtain ⟨hstr, htail⟩ := List.forall_mem_cons.mp hstrs
    have hless : ∀ s ∈ strings, s < str := fun s hs =>
      (List.pairwise_append.mp hsorted).2.2 s hs str List.mem_cons_self
    rw [appendStrings_cons, List.append_assoc] at hfuel ⊢
    obtain ⟨fuel₁, s₁, hloop, hpending₁, hpos₁, hinvert, hfuel₁⟩ := parseLoop_string propertyPattern
      nestedPattern escape hstr.1 hstr.2 hless hpending hpos hfuel
    obtain ⟨fuel₂, s₂, hrec⟩ := @ih (pre ++ bracedString escape str) s₁ (strings ++ [str]) htail
      (by rw [List.append_assoc]; exact hsorted) hpending₁ hpos₁ fuel₁
      (by rw [List.append_assoc]; exact hfuel₁)
    rw [List.append_assoc, List.append_assoc, List.append_assoc, List.singleton_append] at hrec
    obtain ⟨hloop₂, hpending₂, hpos₂, hinvert₂, hfuel₂⟩ := hrec
    exact ⟨fuel₂, s₂, hloop.trans hloop₂, hpending₂, hpos₂, hinvert₂.trans hinvert, hfuel₂⟩

theorem parseLoop_close (hpending : Pending s D strings) (hpos : s.pos = pre.length)
    (hfuel : (pre ++ [0x5d]).length < fuel + s.pos) :
    ∃ s', parseLoop propertyPattern nestedPattern (pre ++ [0x5d]) fuel s = .ok s' ∧ s'.mode =
    .after ∧
      s'.pos = (pre ++ [0x5d]).length ∧ s'.invert = s.invert ∧ s'.set.strings = strings ∧
      Denotes (withoutStrings s'.set) D := by
  obtain ⟨set, hset, hstrings, hd⟩ := hpending.added
  have hlength : (pre ++ [0x5d]).length = pre.length + 1 := by
    rw [List.length_append, List.length_singleton]
  have hstep := @parseStep_other propertyPattern nestedPattern pre [] s 0x5d (by decide) hpos
    hpending.mode
  have hchar : parseChar (pre ++ [0x5d]) { s with pos := pre.length + 1 } (0x5d : UInt16).toNat =
      .ok { s with pos := pre.length + 1, set := set, mode := .after } := by
    have hadded : addLastChar { s with pos := pre.length + 1 } = .ok set := hset
    have hop : ({ s with pos := pre.length + 1 } : ParseState).op = .none := hpending.op
    rw [parseChar, if_pos (by decide), hadded, hop]
    rfl
  obtain ⟨fuel', hloop, -⟩ := parseLoop_step propertyPattern nestedPattern hpending.mode
    (by omega) hfuel (hstep.trans hchar) (by dsimp only; omega)
  refine ⟨{ s with pos := pre.length + 1, set := set, mode := .after }, ?_, rfl, hlength.symm, rfl,
    hstrings, hd⟩
  rw [hloop]
  cases fuel' with
  | zero => rfl
  | succ fuel' => rw [parseLoop, if_pos (Or.inl rfl)]

/-! ## The opening bracket -/

structure Begins (pre body : List UInt16) : Prop where
  ne_nil : body ≠ []
  colon : body.head? ≠ some 0x3a
  reads : ∃ x, next (pre ++ body) pre.length = .ok x ∧ (x.isEscaped = false → x.c ≠ 0x5e ∧
    x.c ≠ 0x2d) ∧
    (x.isEscaped = true → ∀ s : ParseState, s.pos = pre.length → s.mode = .between →
      parseStep propertyPattern nestedPattern (pre ++ body) s = parseLiteral { s with pos :=
        x.pos } x.c)

theorem begins_token (htoken : Token text c)
    (hlead : u16IsLead c = true → NoJoin rest) (htrail : u16IsTrail c = true → EndFree pre) :
    Begins propertyPattern nestedPattern pre (text ++ rest) where
  ne_nil := List.append_ne_nil_of_left_ne_nil htoken.ne_nil _
  colon := by
    intro hhead
    rw [List.head?_append_of_ne_nil _ htoken.ne_nil] at hhead
    obtain ⟨more, rfl⟩ : ∃ more, text = 0x3a :: more := by
      cases text with
      | nil => cases hhead
      | cons u more => exact ⟨more, by rw [Option.some.inj hhead]⟩
    -- A colon would be read as itself, but it is only written with a backslash.
    obtain ⟨isEscaped, hread, hplain, -⟩ := @Token.reads _ _ htoken [] []
      (fun _ pre fuel hne => absurd rfl hne) (fun _ u hu => by cases hu)
    have hcolon := @next_unitsOf [] more 0x3a (by decide) (by decide) (by decide)
      (fun h => absurd h (by decide)) (fun h => absurd h (by decide))
    rw [List.append_nil] at hread
    have heq := hread.symm.trans hcolon
    injection heq with heq
    injection heq with hc hesc
    refine hplain hesc ?_
    rw [show c = 0x3a by omega]
    decide
  reads := by
    obtain ⟨isEscaped, hread, hplain, -⟩ := htoken.reads hlead htrail
    refine ⟨_, hread, fun hesc => ?_, fun _ s hpos hmode => ?_⟩
    · have hmem := hplain hesc
      simp only [syntaxChars, List.mem_cons, List.not_mem_nil, or_false, not_or] at hmem
      dsimp only
      omega
    · exact parseStep_token propertyPattern nestedPattern htoken hpos hmode hlead htrail

theorem begins_unit (hu : u ∈ [0x7b, 0x5d]) :
    Begins propertyPattern nestedPattern pre (u :: rest) := by
  have hfacts : ∀ u ∈ ([0x7b, 0x5d] : List UInt16), u.toNat < 0x80 ∧ u ≠ 0x3a ∧
      isWhiteSpace u.toNat = false ∧ u.toNat ≠ 0x5c ∧ u.toNat ≠ 0x5e ∧ u.toNat ≠ 0x2d ∧
      u16IsLead u.toNat = false ∧ u16IsTrail u.toNat = false :=
    List.all_iff_forall_prop.mp (by decide)
  obtain ⟨hlt, hcolon, hspace, hback, hcaret, hhyphen, hlead, htrail⟩ := hfacts u hu
  have hnext := @next_unitsOf pre rest u.toNat (by omega) hspace hback
    (fun h => by rw [hlead] at h; cases h) (fun h => by rw [htrail] at h; cases h)
  rw [unitsOf_toNat, List.singleton_append] at hnext
  refine ⟨List.cons_ne_nil _ _, fun h => hcolon (Option.some.inj h), _, hnext, fun _ => ?_, fun h =>
    ?_⟩
  · dsimp only
    omega
  · cases h

/-- A pattern may begin with any of its characters, with a string or with the closing bracket. -/
theorem begins_written {ws : List Written} (hws : Separate ws) (hrest : NoJoin rest)
    (hfirst : ∀ w, ws.head? = some w → w.hyphen = false) (hpre : EndFree pre)
    (hbegins : Begins propertyPattern nestedPattern pre rest) :
    Begins propertyPattern nestedPattern pre (unitsOfAll ws ++ rest) := by
  cases ws with
  | nil => exact hbegins
  | cons w ws =>
    obtain ⟨htoken, hnext, htail⟩ := hws
    have hunits : unitsOfAll (w :: ws) = w.text ++ unitsOfAll ws := by
      rw [unitsOfAll_cons, Written.units, hfirst w rfl]
      rfl
    rw [hunits, List.append_assoc]
    refine begins_token propertyPattern nestedPattern htoken (fun hlead => ?_) fun _ => hpre
    exact noJoin_unitsOfAll htail (fun v hv => joins_eq_false (hnext v hv) hlead) hrest

theorem unitAt_of_u16Get {i length : Nat} (h : u16Get text i length = some c)
    (hc : c ≤ 0xffff) : unitAt text i = some c := by
  have hpair : ∀ {lead trail : Nat}, lead < 0x10000 → trail < 0x10000 → u16IsLead lead = true →
      u16IsTrail trail = true → some (u16GetSupplementary lead trail) ≠ some c := by
    intro lead trail hlt hlt' hlead htrail heq
    rw [u16IsLead_iff (by omega)] at hlead
    rw [u16IsTrail_iff (by omega)] at htrail
    have hbounds := u16GetSupplementary_bounds hlead htrail
    rw [Option.some.inj heq] at hbounds
    omega
  unfold u16Get at h
  obtain ⟨u, hu, h⟩ := Option.bind_eq_some_iff.mp h
  have hlt := unitAt_lt hu
  rw [hu]
  split at h
  · next hlead =>
    split at h
    · obtain ⟨u2, hu2, h⟩ := Option.bind_eq_some_iff.mp h
      split at h
      · next htrail => exact absurd h (hpair hlt (unitAt_lt hu2) hlead htrail)
      · exact h
    · exact h
  split at h
  · next htrail =>
    split at h
    · obtain ⟨u2, hu2, h⟩ := Option.bind_eq_some_iff.mp h
      split at h
      · next hlead => exact absurd h (hpair (unitAt_lt hu2) hlt hlead htrail)
      · exact h
    · exact h
  · exact h

/-- The character behind the opening bracket is not a colon. -/
theorem nextChar_ne_colon {body : List UInt16} (h : body.head? ≠ some 0x3a) (fuel : Nat) :
    (nextChar (pre ++ body) false (fuel + 1) pre.length).1 ≠ 0x3a := by
  rw [nextChar, Bool.false_and, if_neg Bool.false_ne_true]
  dsimp only
  unfold current
  split
  · cases body with
    | nil =>
      rw [List.append_nil] at *
      omega
    | cons u body =>
      cases hget : u16Get (pre ++ u :: body) pre.length (pre ++ u :: body).length with
      | none => decide
      | some c =>
        intro hc
        rw [Option.getD_some] at hc
        have hunit := unitAt_of_u16Get hget (by omega)
        rw [unitAt_append, Option.some.injEq] at hunit
        refine h (congrArg some (UInt16.toNat.inj ?_))
        rw [hunit, show c = 0x3a by omega]
        rfl
  · decide

def opening (invert : Bool) : List UInt16 := if invert then [0x5b, 0x5e] else [0x5b]

theorem next_ascii {u : UInt16} (hu : u ∈ [0x5b, 0x5e]) :
    next (pre ++ u :: rest) pre.length = .ok ⟨u.toNat, false, pre.length + 1⟩ := by
  have hfacts : ∀ u ∈ ([0x5b, 0x5e] : List UInt16), u.toNat < 0x80 ∧ isWhiteSpace u.toNat = false ∧
      u.toNat ≠ 0x5c ∧ u16IsLead u.toNat = false ∧ u16IsTrail u.toNat = false :=
    List.all_iff_forall_prop.mp (by decide)
  obtain ⟨hlt, hspace, hback, hlead, htrail⟩ := hfacts u hu
  have hnext := @next_unitsOf pre rest u.toNat (by omega) hspace hback
    (fun h => by rw [hlead] at h; cases h) (fun h => by rw [htrail] at h; cases h)
  rwa [unitsOf_toNat, List.singleton_append] at hnext

theorem not_resembles_open {body : List UInt16} (h : body.head? ≠ some 0x3a) :
    resemblesPropertyPattern (0x5b :: body) 0 = false := by
  have hopen := @nextChar_ascii [] body true 0x5b (by decide) (fun _ => by decide)
    (0x5b :: body).length
  have hcolon := @nextChar_ne_colon [0x5b] body h (0x5b :: body).length
  rw [List.nil_append, List.length_nil] at hopen
  rw [List.singleton_append, List.length_singleton] at hcolon
  rw [resemblesPropertyPattern, hopen]
  dsimp only
  rw [if_pos (by decide), if_pos (by decide), decide_eq_false_iff_not]
  exact hcolon

def opened (invert : Bool) (set : UnicodeSet) : ParseState :=
  ⟨(opening invert).length, .between, .none, 0, .none, invert, set⟩

theorem parseLoop_open (invert : Bool) {body : List UInt16} (set : UnicodeSet)
    (h : Begins propertyPattern nestedPattern (opening invert) body) :
    ∃ fuel, parseLoop propertyPattern nestedPattern (opening invert ++ body)
        ((opening invert ++ body).length + 1) ⟨0, .before, .none, 0, .none, false, set⟩ =
      parseLoop propertyPattern nestedPattern (opening invert ++ body) fuel (opened invert set) ∧
      (opening invert ++ body).length < fuel + (opened invert set).pos := by
  obtain ⟨hne, hcolon, x, hx, hplain, hescaped⟩ := h
  have hbody := List.length_pos_iff.mpr hne
  have hlen : (opening invert ++ body).length = (opened invert set).pos + body.length :=
    List.length_append
  have hpos : 0 < (opened invert set).pos := by cases invert <;> exact Nat.succ_pos _
  -- The first round.
  have hstep : parseStep propertyPattern nestedPattern (opening invert ++ body)
      ⟨0, .before, .none, 0, .none, false, set⟩ =
        if x.c = 0x2d then parseLiteral { opened invert set with pos := x.pos } x.c
        else .ok (opened invert set) := by
    have hcaret : ¬ (x.c = 0x5e ∧ (!x.isEscaped) = true) := by
      rintro ⟨hc, hesc⟩
      exact (hplain (by simpa using hesc)).1 hc
    cases invert with
    | false =>
      have hopen := @next_ascii [] body 0x5b (by decide)
      have hresembles := not_resembles_open hcolon
      simp only [opening, Bool.false_eq_true, if_false, List.singleton_append,
        List.length_singleton,
        List.nil_append, List.length_nil, Nat.zero_add] at hx hopen ⊢
      rw [parseStep, hresembles, if_neg Bool.false_ne_true, hopen]
      simp only [bind, Except.bind]
      rw [if_pos ⟨rfl, rfl⟩, if_neg (by intro h; cases h), hx]
      simp only
      rw [if_neg hcaret]
      rfl
    | true =>
      have hopen := @next_ascii [] (0x5e :: body) 0x5b (by decide)
      have hinvert := @next_ascii [0x5b] body 0x5e (by decide)
      have hresembles := @not_resembles_open (0x5e :: body) (by intro h; cases h)
      simp only [opening, if_true, List.cons_append, List.length_cons, List.nil_append,
        List.length_nil, Nat.zero_add, Nat.reduceAdd] at hx hopen hinvert ⊢
      rw [parseStep, hresembles, if_neg Bool.false_ne_true, hopen]
      simp only [bind, Except.bind]
      rw [if_pos ⟨rfl, rfl⟩, if_neg (by intro h; cases h), hinvert]
      simp only
      rw [if_pos ⟨rfl, rfl⟩, hx]
      rfl
  have hclosed : ¬ ((⟨0, .before, .none, 0, .none, false, set⟩ : ParseState).mode = .after ∨
      atEnd (opening invert ++ body) 0 = true) := by
    rw [atEnd, beq_iff_eq]
    rintro (h | h)
    · cases h
    · omega
  rw [parseLoop, if_neg hclosed, hstep]
  by_cases hhyphen : x.c = 0x2d
  · have hesc : x.isEscaped = true := by
      rw [← Bool.not_eq_false]
      exact fun hesc => (hplain hesc).2 hhyphen
    have hrestart := hescaped hesc (opened invert set) rfl rfl
    have hbetween : ¬ ((opened invert set).mode = .after ∨
        atEnd (opening invert ++ body) (opened invert set).pos = true) := by
      rw [atEnd, beq_iff_eq]
      rintro (h | h)
      · cases h
      · omega
    refine ⟨(opening invert ++ body).length + 1, ?_, by omega⟩
    conv_rhs => rw [parseLoop, if_neg hbetween]
    rw [if_pos hhyphen, ← hrestart]
  · rw [if_neg hhyphen]
    exact ⟨(opening invert ++ body).length, rfl, by omega⟩

end Rounds

end Icu.Pattern
