import Icu.UString.Search

/-! # Finding the first and the last match

Both searches find what they look for, except where a substring with a lead surrogate at its end is
at the end of a text with a length. There, the boundary test compares the start of the match with
the limit, and looks at the unit behind the text.
-/

namespace Icu.UString

open Lib Utf16

variable {text sub tail X units : List UInt16} {i : Nat} {cs : UInt16} {s : List UInt16}

/-! ## One unit -/

section

variable (hcs : uIsSurrogate cs.toNat = false)
include hcs

theorem isMatch_singleton_iff : IsMatch text [cs] i ↔ text[i]? = some cs := by
  have hlt := cs.toNat_lt
  have hrange : ¬ (0xd800 ≤ cs.toNat ∧ cs.toNat ≤ 0xdfff) := by
    rw [← uIsSurrogate_iff (by omega), hcs]
    exact Bool.false_ne_true
  have hlead : u16IsLead cs.toNat = false := by
    rw [← Bool.not_eq_true, u16IsLead_iff (by omega)]
    omega
  have htrail : u16IsTrail cs.toNat = false := by
    rw [← Bool.not_eq_true, u16IsTrail_iff (by omega)]
    omega
  constructor
  · intro h
    simpa using occurs_iff.mp h.occurs 0 (by simp)
  intro h
  have hi := (List.getElem?_eq_some_iff.mp h).1
  refine ⟨occurs_iff.mpr fun q hq => ?_, ⟨Nat.le_of_lt hi, ?_⟩, ⟨hi, ?_⟩⟩
  · obtain rfl : q = 0 := by simpa using hq
    simpa using h
  · rintro k rfl ⟨c, c2, -, hc2, -, ht⟩
    simp only [unitAt, h, Option.map_some, Option.some.injEq] at hc2
    rw [← hc2, htrail] at ht
    cases ht
  · intro k hk
    obtain rfl : k = i := by simpa using hk
    rintro ⟨c, c2, hc, -, hl, -⟩
    simp only [unitAt, h, Option.map_some, Option.some.injEq] at hc
    rw [← hc, hlead] at hl
    cases hl

theorem strchrLoop_firstWith (hne : cs ≠ 0) (hnul : 0 ∉ text)
    (rest : List UInt16) : ∃ r, strchrLoop (text ++ 0 :: rest) cs = some r ∧
      FirstWith (IsMatch text [cs]) r := by
  refine searchUp_firstWith (fun j hj => absurd hj (by omega)) (fun j _ _ _ hrun => ?_)
    (fun hrun => ?_)
  · by_cases hlt : j < text.length
    · obtain ⟨c, hc⟩ : ∃ c, text[j]? = some c := ⟨text[j], List.getElem?_eq_getElem hlt⟩
      have hread : (text ++ 0 :: rest)[j]? = some c := by rw [List.getElem?_append_left hlt, hc]
      have hnot : c ≠ 0 := fun h => hnul (h ▸ List.mem_of_getElem? hc)
      by_cases hsame : c = cs
      · simpa [hread, hsame] using Decides.found
          ((isMatch_singleton_iff hcs).mpr (by rw [hc, hsame]))
      simpa [hread, hsame, hnot] using
        Decides.next fun h : IsMatch text [cs] j => hsame (by
          have heq := (isMatch_singleton_iff hcs).mp h
          rw [hc] at heq
          exact Option.some.inj heq)
    · by_cases hend : j = text.length
      · subst hend
        simpa [Ne.symm hne] using Decides.stop fun k hk (h : IsMatch text [cs] k) => by
          have := h.add_le
          simp at this
          omega
      · have hrun := hrun text.length (Nat.zero_le _) (by omega)
        simp [Ne.symm hne] at hrun
  · have hrun := hrun text.length (Nat.zero_le _) (by simp)
    simp [Ne.symm hne] at hrun

theorem memchr_decides (hi : i < text.length) : Decides (IsMatch text [cs]) i (do
      let c ← (text ++ tail)[i]?
      if c = cs then return .found else return .next) := by
  obtain ⟨c, hc⟩ : ∃ c, text[i]? = some c := ⟨text[i], List.getElem?_eq_getElem hi⟩
  have hread : (text ++ tail)[i]? = some c := by rw [List.getElem?_append_left hi, hc]
  by_cases hsame : c = cs
  · simpa [hread, hsame] using Decides.found ((isMatch_singleton_iff hcs).mpr (by rw [hc, hsame]))
  simpa [hread, hsame] using Decides.next fun h : IsMatch text [cs] i => hsame (by
    have heq := (isMatch_singleton_iff hcs).mp h
    rw [hc] at heq
    exact Option.some.inj heq)

end

theorem not_isMatch_behind {j : Nat} (hj : text.length < j + sub.length) :
    ¬ IsMatch text sub j := by
  intro h
  have := h.add_le
  omega

theorem memchrLoop_firstWith (hcs : uIsSurrogate cs.toNat = false) (tail : List UInt16) :
    ∃ r, memchrLoop (text ++ tail) cs text.length = some r ∧ FirstWith (IsMatch text [cs]) r :=
  searchUp_firstWith (fun j hj => absurd hj (by omega))
    (fun j _ hj _ _ => memchr_decides hcs (by omega))
    fun _ => ⟨rfl, fun j hj => not_isMatch_behind (by simp; omega)⟩

theorem memrchrLoop_lastWith (hcs : uIsSurrogate cs.toNat = false) (tail : List UInt16) :
    ∃ r, memrchrLoop (text ++ tail) cs text.length = some r ∧ LastWith (IsMatch text [cs]) r := by
  refine searchDown_lastWith (fun j hj => not_isMatch_behind (by simp; omega))
    (fun j _ hj _ => memchr_decides hcs (by omega)) (fun j => ?_) fun j hj => absurd hj (by omega)
  cases (text ++ tail)[j]? with
  | none => simp
  | some c =>
    by_cases hsame : c = cs
    · simp [hsame]
    · simp [hsame]

theorem strrchrLoop_eq (hne : cs ≠ 0) (rest : List UInt16) (P : Nat → Prop) :
    ∀ (s : List UInt16) (i : Nat) (result : Option Nat), 0 ∉ s →
      (∀ j, i ≤ j → (P j ↔ s[j - i]? = some cs)) → LastWith (fun j => P j ∧ j < i) result →
        ∃ r, strrchrLoop cs (s ++ 0 :: rest) i result = some r ∧ LastWith P r := by
  intro s
  induction s with
  | nil =>
    intro i result _ hP hresult
    refine ⟨result, by simp [strrchrLoop, Ne.symm hne], ?_⟩
    have hno : ∀ j, i ≤ j → ¬ P j := fun j hj h => by simpa using (hP j hj).mp h
    cases result with
    | none =>
      intro j h
      rcases Nat.lt_or_ge j i with hlt | hge
      · exact hresult j ⟨h, hlt⟩
      · exact hno j hge h
    | some k =>
      refine ⟨hresult.1.1, fun j hj h => ?_⟩
      rcases Nat.lt_or_ge j i with hlt | hge
      · exact hresult.2 j hj ⟨h, hlt⟩
      · exact hno j hge h
  | cons c s ih =>
    intro i result hnul hP hresult
    rw [List.mem_cons, not_or] at hnul
    have hnext : ∀ j, i + 1 ≤ j → (P j ↔ s[j - (i + 1)]? = some cs) := by
      intro j hj
      rw [hP j (by omega), show j - i = j - (i + 1) + 1 by omega]
      rfl
    have hhere : P i ↔ c = cs := by simpa using hP i (Nat.le_refl i)
    have hresult' : LastWith (fun j => P j ∧ j < i + 1) (if c = cs then some i else result) := by
      by_cases hsame : c = cs
      · rw [if_pos hsame]
        exact ⟨⟨hhere.mpr hsame, by omega⟩, fun j hj h => absurd h.2 (by omega)⟩
      rw [if_neg hsame]
      have hback : ∀ j, P j ∧ j < i + 1 → P j ∧ j < i := by
        rintro j ⟨h, hlt⟩
        by_cases heq : j = i
        · exact absurd (hhere.mp (heq ▸ h)) hsame
        · exact ⟨h, by omega⟩
      cases result with
      | none => exact fun j h => hresult j (hback j h)
      | some k =>
        have hk := hresult.1.2
        exact ⟨⟨hresult.1.1, by omega⟩, fun j hj h => hresult.2 j hj (hback j h)⟩
    obtain ⟨r, hr, hlast⟩ := ih (i + 1) _ hnul.2 hnext hresult'
    exact ⟨r, by simpa [strrchrLoop, Ne.symm hnul.1] using hr, hlast⟩

theorem strrchrLoop_lastWith (hcs : uIsSurrogate cs.toNat = false) (hne : cs ≠ 0) (hnul : 0 ∉ text)
    (rest : List UInt16) : ∃ r, strrchrLoop cs (text ++ 0 :: rest) 0 none = some r ∧
      LastWith (IsMatch text [cs]) r :=
  strrchrLoop_eq hne rest _ text 0 none hnul (fun _ _ => isMatch_singleton_iff hcs)
    fun _ h => absurd h.2 (by omega)

section Loops

variable (hsub : sub ≠ []) (hcs : sub[0]? = some cs)

include hsub hcs

theorem testUnit_counted_decides (hle : i + sub.length ≤ text.length)
    (hreadable : sub <+: text.drop i → IsBoundary text i → Readable text sub tail i) :
    Decides (IsMatch text sub) i (testUnit (text ++ tail) false cs
      (fun i => compareRest (text ++ tail) (sub ++ X) (some text.length) i (i + 1) 1
        (sub.length - 1)) i) := by
  have hpos := List.length_pos_iff.mpr hsub
  obtain ⟨c, hc⟩ : ∃ c, text[i]? = some c := ⟨text[i], List.getElem?_eq_getElem (by omega)⟩
  have hread : (text ++ tail)[i]? = some c := by rw [List.getElem?_append_left (by omega), hc]
  by_cases hoccurs : sub <+: text.drop i
  · have hsame : c = cs := by
      have hfirst := occurs_iff.mp hoccurs 0 hpos
      rw [Nat.add_zero, hc, hcs] at hfirst
      exact Option.some.inj hfirst
    have hcompare := @compareRest_of_occurs text sub tail X i (some text.length) 1
      (sub.length - 1) hoccurs hle (fun h => by cases h) (by omega)
    have hdecides := @matchVerdict_decides text sub tail i (some text.length) hsub hoccurs hle
      (by simp; omega) (hreadable hoccurs)
    simpa [testUnit, hread, hsame, hcompare] using hdecides
  · by_cases hsame : c = cs
    · have hagree : ∀ k < 1, text[i + k]? = sub[k]? := by
        intro k hk
        obtain rfl : k = 0 := by omega
        rw [Nat.add_zero, hc, hcs, hsame]
      have hdecides := @compareRest_of_not_occurs text sub tail X i (some text.length) 1
        (sub.length - 1) hoccurs hagree (by omega) hle
      simpa [testUnit, hread, hsame] using hdecides
    · simpa [testUnit, hread, hsame] using Decides.next fun h : IsMatch text sub i =>
        hoccurs h.occurs

theorem testUnit_endsInLead (h : EndsInLead text sub) :
    testUnit text false cs (fun i => compareRest text (sub ++ X) (some text.length) i (i + 1) 1
      (sub.length - 1)) (text.length - sub.length) = none := by
  have hpos := List.length_pos_iff.mpr hsub
  have hle := h.suffix.length_le
  have hoccurs := h.isMatch.occurs
  have hread : text[text.length - sub.length]? = some cs := by
    have hfirst := occurs_iff.mp hoccurs 0 hpos
    rwa [Nat.add_zero, hcs] at hfirst
  have hcompare := @compareRest_of_occurs text sub [] X (text.length - sub.length)
    (some text.length) 1 (sub.length - 1) hoccurs (by omega) (fun h => by cases h) (by omega)
  rw [List.append_nil, Nat.sub_add_cancel hle,
    matchVerdict_endsInLead h hsub (by simp; omega)] at hcompare
  simp [testUnit, hread, hcompare]

theorem testUnit_terminated_decides (hnul : 0 ∉ text) (hi : i < text.length) (rest : List UInt16) :
    Decides (IsMatch text sub) i (testUnit (text ++ 0 :: rest) true cs
      (fun i => compareRest (text ++ 0 :: rest) (sub ++ X) none i (i + 1) 1 (sub.length - 1))
        i) := by
  have hpos := List.length_pos_iff.mpr hsub
  obtain ⟨c, hc⟩ : ∃ c, text[i]? = some c := ⟨text[i], List.getElem?_eq_getElem hi⟩
  have hread : (text ++ 0 :: rest)[i]? = some c := by rw [List.getElem?_append_left hi, hc]
  have hne : c ≠ 0 := fun h => hnul (h ▸ List.mem_of_getElem? hc)
  by_cases hsame : c = cs
  · by_cases hoccurs : sub <+: text.drop i
    · have hle : i + sub.length ≤ text.length := by
        have := hoccurs.length_le
        rw [List.length_drop] at this
        omega
      have hcompare := @compareRest_of_occurs text sub (0 :: rest) X i none 1 (sub.length - 1)
        hoccurs hle (fun _ => hnul) (by omega)
      have hdecides := @matchVerdict_decides text sub (0 :: rest) i none hsub hoccurs hle
        (fun h => by cases h) fun _ => .inr (.inl ⟨rest, rfl⟩)
      rw [← hcompare] at hdecides
      rw [hsame] at hread hne
      simpa [testUnit, hread, hne] using hdecides
    · have hagree : ∀ k < 1, text[i + k]? = sub[k]? := by
        intro k hk
        obtain rfl : k = 0 := by omega
        rw [Nat.add_zero, hc, hcs, hsame]
      have hdecides := @compareRest_of_not_occurs text sub (0 :: rest) X i none 1
        (sub.length - 1) hoccurs hagree (by omega) ⟨hnul, hi, rest, rfl⟩
      rw [hsame] at hread hne
      simpa [testUnit, hread, hne] using hdecides
  · have hno : ¬ IsMatch text sub i := by
      intro h
      have hfirst := occurs_iff.mp h.occurs 0 hpos
      rw [Nat.add_zero, hc, hcs] at hfirst
      exact hsame (Option.some.inj hfirst)
    simpa [testUnit, hread, hne, hsame] using Decides.next hno

theorem searchUp_terminated_firstWith (hnul : 0 ∉ text) (rest : List UInt16) :
    ∃ r, searchUp (testUnit (text ++ 0 :: rest) true cs fun i =>
      compareRest (text ++ 0 :: rest) (sub ++ X) none i (i + 1) 1 (sub.length - 1))
      none (text ++ 0 :: rest).length 0 = some r ∧ FirstWith (IsMatch text sub) r := by
  have hpos := List.length_pos_iff.mpr hsub
  have hstop : testUnit (text ++ 0 :: rest) true cs (fun i =>
    compareRest (text ++ 0 :: rest) (sub ++ X) none i (i + 1) 1 (sub.length - 1)) text.length =
    some .stop := by simp [testUnit]
  refine searchUp_firstWith (fun j hj => absurd hj (by omega)) (fun j _ _ _ hrun => ?_)
    fun hrun => ?_
  · rcases Nat.lt_trichotomy j text.length with hlt | rfl | hgt
    · exact testUnit_terminated_decides hsub hcs hnul hlt rest
    · rw [hstop]
      exact .stop fun k hk => not_isMatch_behind (by omega)
    · have := hrun text.length (Nat.zero_le _) hgt
      rw [hstop] at this
      cases this
  · have := hrun text.length (Nat.zero_le _) (by simp)
    rw [hstop] at this
    cases this

end Loops

theorem matchVerdict_ne_stop (units : List UInt16) (matchStart matchLimit : Nat)
    (limit : Option Nat) : matchVerdict units matchStart matchLimit limit ≠ some .stop := by
  rw [matchVerdict]
  cases isMatchAtCPBoundary units 0 matchStart matchLimit limit with
  | none => simp
  | some b => cases b <;> simp

theorem compareBackward_ne_stop (units sub : List UInt16) (limit length p q : Nat) :
    compareBackward units sub limit length p q ≠ some .stop := by
  induction q generalizing p with
  | zero => exact matchVerdict_ne_stop units p (limit + 1) (some length)
  | succ q ih =>
    rw [compareBackward]
    cases units[p - 1]? with
    | none => simp
    | some c =>
      cases sub[q]? with
      | none => simp
      | some cq =>
        by_cases hsame : c = cq
        · simpa [hsame] using ih (p - 1)
        · simp [hsame]

theorem testUnit_ne_stop {compare : Nat → Option Verdict} (h : ∀ k, compare k ≠ some .stop)
    (k : Nat) : testUnit units false cs compare k ≠ some .stop := by
  rw [testUnit]
  cases units[k]? with
  | none => simp
  | some c =>
    by_cases hsame : c = cs
    · simpa [hsame] using h k
    · simp [hsame]

section Backward

variable (hsub : sub ≠ []) (hcs : sub[sub.length - 1]? = some cs)

include hsub hcs

theorem testUnit_backward_decides (hle : i + sub.length ≤ text.length)
    (hreadable : sub <+: text.drop i → IsBoundary text i → Readable text sub tail i) :
    Decides (IsMatch text sub) i (testUnit (text ++ tail) false cs
      (fun limit => compareBackward (text ++ tail) (sub ++ X) limit text.length limit
        (sub.length - 1)) (i + (sub.length - 1))) := by
  have hpos := List.length_pos_iff.mpr hsub
  obtain ⟨c, hc⟩ : ∃ c, text[i + (sub.length - 1)]? = some c :=
    ⟨text[i + (sub.length - 1)], List.getElem?_eq_getElem (by omega)⟩
  have hread : (text ++ tail)[i + (sub.length - 1)]? = some c := by
    rw [List.getElem?_append_left (by omega), hc]
  have hlimit : i + sub.length - 1 = i + (sub.length - 1) := by omega
  by_cases hoccurs : sub <+: text.drop i
  · have hsame : c = cs := by
      have hfirst := occurs_iff.mp hoccurs (sub.length - 1) (by omega)
      rw [hc, hcs] at hfirst
      exact Option.some.inj hfirst
    have hcompare := @compareBackward_of_occurs text sub tail X i (sub.length - 1) hoccurs hle hsub
      (Nat.le_refl _) text.length
    have hdecides := @matchVerdict_decides text sub tail i (some text.length) hsub hoccurs hle
      (by simp; omega) (hreadable hoccurs)
    rw [hlimit] at hcompare
    simpa [testUnit, hread, hsame, hcompare] using hdecides
  · by_cases hsame : c = cs
    · have hcompare := @compareBackward_of_not_occurs text sub tail X i (sub.length - 1) hoccurs hle
        (by omega) (fun k hk hlt => by
          obtain rfl : k = sub.length - 1 := by omega
          rw [hc, hcs, hsame]) text.length
      rw [hlimit] at hcompare
      simpa [testUnit, hread, hsame, hcompare] using
        Decides.next fun h : IsMatch text sub i => hoccurs h.occurs
    · simpa [testUnit, hread, hsame] using Decides.next fun h : IsMatch text sub i =>
        hoccurs h.occurs

theorem testUnit_backward_endsInLead (h : EndsInLead text sub) :
    testUnit text false cs (fun limit => compareBackward text (sub ++ X) limit text.length limit
      (sub.length - 1)) (text.length - sub.length + (sub.length - 1)) = none := by
  have hpos := List.length_pos_iff.mpr hsub
  have hle := h.suffix.length_le
  have hoccurs := h.isMatch.occurs
  have hread : text[text.length - sub.length + (sub.length - 1)]? = some cs := by
    rw [occurs_iff.mp hoccurs _ (by omega), hcs]
  have hcompare := @compareBackward_of_occurs text sub [] X (text.length - sub.length)
    (sub.length - 1) hoccurs (by omega) hsub (Nat.le_refl _) text.length
  have hlimit : text.length - sub.length + sub.length - 1 =
      text.length - sub.length + (sub.length - 1) := by omega
  rw [List.append_nil, hlimit, Nat.sub_add_cancel hle,
    matchVerdict_endsInLead h hsub (by simp; omega)] at hcompare
  simp [testUnit, hread, hcompare]

end Backward

/-! ## The searches -/

theorem uStrlen_append (hnul : 0 ∉ s) (rest : List UInt16) :
    uStrlen (s ++ 0 :: rest) = some s.length := by
  induction s with
  | nil => simp [uStrlen]
  | cons c s ih =>
    rw [List.mem_cons, not_or] at hnul
    simp [uStrlen, Ne.symm hnul.1, ih hnul.2]

theorem Passing.exists_units (passing : Passing) (s rest : List UInt16) :
    ∃ X, passing.units s rest = s ++ X := by
  cases passing with
  | counted => exact ⟨rest, rfl⟩
  | terminated => exact ⟨0 :: rest, rfl⟩

theorem lengthOf_eq {passing : Passing} (hnul : passing.Allows s)
    (rest : List UInt16) : lengthOf (passing.units s rest) (passing.length s) = some s.length := by
  cases passing with
  | counted =>
    rfl
  | terminated =>
    simpa [lengthOf, Passing.length, Passing.units] using uStrlen_append (hnul rfl) rest

theorem surrogate_of_lead {u : UInt16} (h : u16IsLead u.toNat = true) :
    uIsSurrogate u.toNat = true := by
  have hlt := u.toNat_lt
  rw [u16IsLead_iff (by omega)] at h
  rw [uIsSurrogate_iff (by omega)]
  omega

theorem eq_singleton (hcs : sub[0]? = some cs) (hlen : sub.length - 1 = 0) : sub = [cs] := by
  match sub, hcs, hlen with
  | [u], hcs, _ => simpa using hcs

/-- The shortcut for a single unit is not taken. -/
theorem EndsInLead.not_single (h : EndsInLead text sub) (hcs : sub[0]? = some cs) :
    ¬ (sub.length - 1 = 0 ∧ ¬ uIsSurrogate cs.toNat = true) := by
  rintro ⟨hlen, hnot⟩
  obtain ⟨u, hu, hlead⟩ := h.lead
  rw [eq_singleton hcs hlen] at hu
  obtain rfl : cs = u := Option.some.inj hu
  exact hnot (surrogate_of_lead hlead)

/-- Only a match at the end of the text has a unit behind it that cannot be read. -/
theorem readable_or_endsInLead (hoccurs : sub <+: text.drop i) (hboundary : IsBoundary text i)
    (hle : i + sub.length ≤ text.length) :
    Readable text sub tail i ∨ i = text.length - sub.length ∧ EndsInLead text sub := by
  by_cases hlt : i + sub.length < text.length
  · exact .inl (.inl hlt)
  have hi : i = text.length - sub.length := by omega
  by_cases hlead : ∃ u ∈ sub.getLast?, u16IsLead u.toNat = true
  · refine .inr ⟨hi, ?_, hlead, hi ▸ hboundary⟩
    obtain ⟨rest, hrest⟩ := hoccurs
    have hnil : rest = [] := by
      have hlen := congrArg List.length hrest
      simp at hlen
      exact List.eq_nil_of_length_eq_zero (by omega)
    rw [hnil, List.append_nil] at hrest
    exact hrest ▸ List.drop_suffix i text
  · refine .inl (.inr (.inr fun u hu => ?_))
    rw [← Bool.not_eq_true]
    exact fun h => hlead ⟨u, hu, h⟩

section Find

variable {passing : Passing} {subRest : List UInt16} (hsub : sub ≠ [])
variable (hcs : sub[0]? = some cs) (hX : passing.units sub subRest = sub ++ X)
variable (hpassing : passing.Allows sub)

include hsub hcs hX hpassing

theorem findFirst_counted_eq (n : Nat) : findFirst units n (sub ++ X) (passing.length sub) =
    if sub.length - 1 = 0 ∧ ¬ uIsSurrogate cs.toNat then
      if n = 0 then some none else memchrLoop units cs n
    else if n ≤ sub.length - 1 then some none else searchUp (testUnit units false cs fun i =>
      compareRest units (sub ++ X) (some n) i (i + 1) 1 (sub.length - 1)) (some none)
      (n - (sub.length - 1)) 0 := by
  have hlen := lengthOf_eq hpassing subRest
  rw [hX] at hlen
  have hread : (sub ++ X)[0]? = some cs := by
    rw [List.getElem?_append_left (List.length_pos_iff.mpr hsub), hcs]
  have hne : sub.length ≠ 0 := by simpa using hsub
  rw [findFirst, if_neg (by omega), hlen]
  simp only [Option.bind_eq_bind, Option.bind_some, if_neg hne, hread, Int.toNat_natCast,
    if_neg (show ¬ (n : Int) < 0 by omega)]
  rfl

theorem findFirst_counted_iff :
    (∀ rest, ∃ r, findFirst (text ++ rest) text.length (sub ++ X) (passing.length sub) = some r ∧
      FirstWith (IsMatch text sub) r) ↔
      (EndsInLead text sub → ∃ j < text.length - sub.length, IsMatch text sub j) := by
  have hpos := List.length_pos_iff.mpr hsub
  constructor
  · intro h hlead
    by_contra hno
    have hle := hlead.suffix.length_le
    have hrun : ∀ j, 0 ≤ j → j < text.length - sub.length → testUnit text false cs (fun i =>
        compareRest text (sub ++ X) (some text.length) i (i + 1) 1 (sub.length - 1)) j =
        some .next := by
      intro j _ hj
      have hdecides := @testUnit_counted_decides text sub [] X j cs hsub hcs (by omega)
        fun _ _ => .inl (by omega)
      rw [List.append_nil] at hdecides
      exact hdecides.eq_next (fun hmatch => hno ⟨j, hj, hmatch⟩) ⟨_, by omega, hlead.isMatch⟩
    have hnone := testUnit_endsInLead (X := X) hsub hcs hlead
    obtain ⟨r, hr, -⟩ := h []
    rw [List.append_nil, findFirst_counted_eq hsub hcs hX hpassing, if_neg (hlead.not_single hcs),
      if_neg (by omega), searchUp_eq_none (Nat.zero_le _) (by omega) hrun hnone] at hr
    cases hr
  intro h rest
  rw [findFirst_counted_eq hsub hcs hX hpassing]
  split
  · next hsingle =>
    obtain rfl := eq_singleton hcs hsingle.1
    split
    · exact ⟨none, rfl, fun j => not_isMatch_behind (by simp; omega)⟩
    · exact memchrLoop_firstWith (by simpa using hsingle.2) rest
  split
  · exact ⟨none, rfl, fun j => not_isMatch_behind (by omega)⟩
  refine searchUp_firstWith (fun j hj => absurd hj (by omega)) (fun j _ hj hbefore _ => ?_)
    fun _ => ⟨rfl, fun j hj => not_isMatch_behind (by omega)⟩
  refine testUnit_counted_decides hsub hcs (by omega) fun hoccurs hboundary => ?_
  refine (readable_or_endsInLead hoccurs hboundary (by omega)).resolve_right ?_
  rintro ⟨rfl, hlead⟩
  obtain ⟨k, hk, hmatch⟩ := h hlead
  exact hbefore k hk hmatch

theorem findFirst_terminated_firstWith (hnulSub : 0 ∉ sub) (hnul : 0 ∉ text) (rest : List UInt16) :
    ∃ r, findFirst (text ++ 0 :: rest) (-1) (sub ++ X) (passing.length sub) = some r ∧
      FirstWith (IsMatch text sub) r := by
  have hpos := List.length_pos_iff.mpr hsub
  have hne : cs ≠ 0 := fun h => hnulSub (h ▸ List.mem_of_getElem? hcs)
  have hread : (sub ++ X)[0]? = some cs := by rw [List.getElem?_append_left hpos, hcs]
  have hlen := lengthOf_eq hpassing subRest
  rw [hX] at hlen
  have hgeneral := searchUp_terminated_firstWith (X := X) hsub hcs hnul rest
  rw [findFirst]
  cases passing with
  | counted =>
    rw [if_neg (by rw [Passing.length]; omega), hlen]
    simp only [Option.bind_eq_bind, Option.bind_some, if_neg (Nat.ne_of_gt hpos), hread]
    split
    · next hsingle =>
      obtain rfl := eq_singleton hcs hsingle.1
      exact strchrLoop_firstWith (by simpa using hsingle.2) hne hnul rest
    · exact hgeneral
  | terminated =>
    obtain rfl : X = 0 :: subRest := by
      exact (List.append_cancel_left hX).symm
    rw [if_pos (by rw [Passing.length]; omega), hread]
    simp only [Option.bind_eq_bind, Option.bind_some, if_neg hne]
    obtain ⟨next, hnext, hzero⟩ : ∃ next, (sub ++ 0 :: subRest)[1]? = some next ∧
        (next = 0 ↔ sub.length - 1 = 0) := by
      by_cases hone : sub.length = 1
      · refine ⟨0, ?_, by simp [hone]⟩
        rw [← hone, List.getElem?_append_right (Nat.le_refl _), Nat.sub_self]
        rfl
      · have hlt : 1 < sub.length := by omega
        refine ⟨sub[1], ?_, fun h => absurd (h ▸ List.getElem_mem hlt) hnulSub, fun h => by omega⟩
        rw [List.getElem?_append_left hlt, List.getElem?_eq_getElem hlt]
    have hcompare : (fun i => compareTerminated (text ++ 0 :: rest) i (i + 1)
          ((sub ++ 0 :: subRest).drop 1)) =
        fun i => compareRest (text ++ 0 :: rest) (sub ++ 0 :: subRest) none i (i + 1) 1
          (sub.length - 1) := by
      funext i
      rw [List.drop_append_of_le_length hpos]
      exact compareTerminated_eq hnulSub _ _ (by omega)
    rw [hnext, Option.bind_some, hcompare]
    split
    · next hsingle =>
      obtain rfl := eq_singleton hcs (hzero.mp hsingle.1)
      exact strchrLoop_firstWith (by simpa using hsingle.2) hne hnul rest
    · exact hgeneral

end Find

section FindLast

variable {passing : Passing} {subRest : List UInt16} (hsub : sub ≠ []) {given : Passing}
variable (hcs : sub[sub.length - 1]? = some cs) (hX : passing.units sub subRest = sub ++ X)
variable (hpassing : passing.Allows sub)

include hsub hcs hX hpassing

theorem findLast_eq {rest Y : List UInt16} (hgiven : given.Allows text)
    (hY : given.units text rest = text ++ Y) :
    findLast (text ++ Y) (given.length text) (sub ++ X) (passing.length sub) =
      if sub.length - 1 = 0 ∧ ¬ uIsSurrogate cs.toNat then
        if given.length text < 0 then strrchrLoop cs (text ++ Y) 0 none
        else if (given.length text).toNat = 0 then some none
        else memrchrLoop (text ++ Y) cs (given.length text).toNat
      else if text.length ≤ sub.length - 1 then some none
      else searchDown (fun p => testUnit (text ++ Y) false cs (fun limit =>
        compareBackward (text ++ Y) (sub ++ X) limit text.length limit (sub.length - 1))
        (p + (sub.length - 1))) 0 (text.length - (sub.length - 1)) := by
  have hpos := List.length_pos_iff.mpr hsub
  have hlen := lengthOf_eq hpassing subRest
  have hlenText := lengthOf_eq hgiven rest
  rw [hX] at hlen
  rw [hY] at hlenText
  have hread : (sub ++ X)[sub.length - 1]? = some cs := by
    rw [List.getElem?_append_left (by omega), hcs]
  rw [findLast, hlen]
  simp only [Option.bind_eq_bind, Option.bind_some, if_neg (Nat.ne_of_gt hpos), hread, hlenText]
  rfl

theorem findLast_iff (hgiven : given.Allows text) (hnulSub : 0 ∉ sub) :
    (∀ rest, ∃ r, findLast (given.units text rest) (given.length text) (sub ++ X)
      (passing.length sub) = some r ∧ LastWith (IsMatch text sub) r) ↔
      (given = .counted → ¬ EndsInLead text sub) := by
  have hpos := List.length_pos_iff.mpr hsub
  have hfirst : (EndsInLead text sub) → ¬ (sub.length - 1 = 0 ∧ ¬ uIsSurrogate cs.toNat =
    true) := by
    intro h hsingle
    refine h.not_single ?_ hsingle
    rw [← hcs, hsingle.1]
  constructor
  · rintro h rfl hlead
    have hle := hlead.suffix.length_le
    obtain ⟨r, hr, -⟩ := h []
    have hnone := testUnit_backward_endsInLead (X := X) hsub hcs hlead
    rw [Passing.units, findLast_eq hsub hcs hX hpassing hgiven (Y := []) rfl, List.append_nil,
      if_neg (hfirst hlead), if_neg (by omega),
      show text.length - (sub.length - 1) = text.length - sub.length + 1 by omega, searchDown,
      Nat.zero_add, hnone] at hr
    cases hr
  intro h rest
  obtain ⟨Y, hY⟩ := given.exists_units text rest
  rw [hY, findLast_eq hsub hcs hX hpassing hgiven hY]
  split
  · next hsingle =>
    have hne : cs ≠ 0 := fun h => hnulSub (h ▸ List.mem_of_getElem? hcs)
    have hnot : uIsSurrogate cs.toNat = false := by simpa using hsingle.2
    obtain rfl := eq_singleton (by rw [← hcs, hsingle.1]) hsingle.1
    cases given with
    | counted =>
      have hlen : (Passing.counted.length text).toNat = text.length := Int.toNat_natCast _
      rw [if_neg (by rw [Passing.length]; omega), hlen]
      split
      · exact ⟨none, rfl, fun j => not_isMatch_behind (by simp; omega)⟩
      · exact memrchrLoop_lastWith hnot Y
    | terminated =>
      obtain rfl : Y = 0 :: rest := by
        exact (List.append_cancel_left hY).symm
      exact strrchrLoop_lastWith hnot hne (hgiven rfl) rest
  · split
    · exact ⟨none, rfl, fun j => not_isMatch_behind (by omega)⟩
    refine searchDown_lastWith (fun j hj => not_isMatch_behind (by omega)) (fun j _ hj _ => ?_)
      (fun j => ?_) fun j hj => absurd hj (by omega)
    · refine testUnit_backward_decides hsub hcs (by omega) fun hoccurs hboundary => ?_
      cases given with
      | counted =>
        refine (readable_or_endsInLead hoccurs hboundary (by omega)).resolve_right ?_
        exact fun hlead => h rfl hlead.2
      | terminated =>
        exact .inr (.inl ⟨rest, (List.append_cancel_left hY).symm⟩)
    · exact testUnit_ne_stop (fun limit => compareBackward_ne_stop _ _ _ _ _ _) _

end FindLast

/-- Both functions find what they look for, whatever the units behind the text are, if the text is
NUL-terminated or the substring does not have a lead surrogate at its end where the text ends. The
search from the start may have found an earlier match. -/
theorem uStrFind_iff {given passing : Passing} {subRest : List UInt16} (hsub : sub ≠ [])
    (hnulSub : 0 ∉ sub) (hgiven : given.Allows text) :
    ((∀ rest, ∃ r, uStrFindFirst (some (given.units text rest)) (given.length text)
        (some (passing.units sub subRest)) (passing.length sub) = some r ∧
        FirstWith (IsMatch text sub) r) ↔
      (given = .counted → EndsInLead text sub →
        ∃ j < text.length - sub.length, IsMatch text sub j)) ∧
    ((∀ rest, ∃ r, uStrFindLast (some (given.units text rest)) (given.length text)
        (some (passing.units sub subRest)) (passing.length sub) = some r ∧
        LastWith (IsMatch text sub) r) ↔
      (given = .counted → ¬ EndsInLead text sub)) := by
  have hpassing : passing.Allows sub := fun _ => hnulSub
  obtain ⟨X, hX⟩ := passing.exists_units sub subRest
  have hpos := List.length_pos_iff.mpr hsub
  obtain ⟨cs, hcs⟩ : ∃ cs, sub[0]? = some cs := ⟨sub[0], List.getElem?_eq_getElem hpos⟩
  obtain ⟨cl, hcl⟩ : ∃ cl, sub[sub.length - 1]? = some cl :=
    ⟨sub[sub.length - 1], List.getElem?_eq_getElem (by omega)⟩
  have harguments : ∀ find units, withArguments find (some units) (given.length text)
      (some (passing.units sub subRest)) (passing.length sub) =
      find units (given.length text) (sub ++ X) (passing.length sub) := by
    intro find units
    rw [withArguments, if_neg (by cases passing <;> simp [Passing.length]),
      if_neg (by cases given <;> simp [Passing.length]), hX]
  simp only [uStrFindFirst, uStrFindLast, harguments]
  refine ⟨?_, findLast_iff hsub hcl hX hpassing hgiven hnulSub⟩
  cases given with
  | counted =>
    rw [forall_prop_of_true rfl]
    exact findFirst_counted_iff hsub hcs hX hpassing
  | terminated =>
    exact ⟨fun _ h => (nomatch h), fun _ rest =>
      findFirst_terminated_firstWith hsub hcs hX hpassing hnulSub (hgiven rfl) rest⟩

/-- A pair in a text with a length, by a NUL-terminated substring. -/
theorem uStrFind_pair : ∃ r,
    uStrFindFirst (some [0x61, 0xd83d, 0xde00, 0x62]) 3 (some [0xd83d, 0xde00, 0]) (-1) = some r ∧
      FirstWith (IsMatch [0x61, 0xd83d, 0xde00] [0xd83d, 0xde00]) r := by
  have hiff := (@uStrFind_iff [0x61, 0xd83d, 0xde00] [0xd83d, 0xde00] .counted .terminated []
    (by decide) (by decide) (fun h => by cases h)).1
  exact hiff.mpr (fun _ h => by
    obtain ⟨u, hu, hlead⟩ := h.lead
    obtain rfl := Option.some.inj hu
    exact absurd hlead (by decide)) [0x62]

/-- A lead surrogate at the end of a text, with a trail surrogate behind the text, is not found. -/
theorem uStrFindFirst_reads_behind :
    ¬ ∀ (text sub rest subRest : List UInt16) (given passing : Passing), sub ≠ [] → 0 ∉ sub →
      given.Allows text → ∃ r, uStrFindFirst (some (given.units text rest)) (given.length text)
        (some (passing.units sub subRest)) (passing.length sub) = some r ∧
        FirstWith (IsMatch text sub) r := by
  intro h
  obtain ⟨r, hr, hfirst⟩ :=
    h [0xd83d] [0xd83d] [0xde00] [] .counted .counted (by decide) (by decide)
    (fun h => by cases h)
  obtain rfl : r = none := (Option.some.inj (hr.symm.trans (by decide)))
  exact hfirst 0 ⟨List.prefix_refl _, isBoundary_zero _, isBoundary_length _⟩

end Icu.UString
