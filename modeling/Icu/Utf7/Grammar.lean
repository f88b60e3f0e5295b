import Icu.Utf7.Decoder

/-! # The grammar of UTF-7

Characters that are encoded directly, escaped plus signs, and runs of base64. A run ends at a minus
sign, at another character, or with the text. What a run must be is a parameter of the grammar.
-/

namespace Icu.Utf7

variable {bs : List UInt8}

def IsBase64 (b : UInt8) : Prop := 0 ≤ base64Value b

instance (b : UInt8) : Decidable (IsBase64 b) := inferInstanceAs (Decidable (0 ≤ base64Value b))

def runValue (digits : List UInt8) : Nat :=
  digits.foldl (fun n b => 64 * n + (base64Value b).toNat) 0

def paddingLength (digits : List UInt8) : Nat := 6 * digits.length % 16

def padding (digits : List UInt8) : Nat := runValue digits % 2 ^ paddingLength digits

/-- A run encodes at least one unit and nothing but units: behind them there are fewer bits than a
digit has, and all of them are zero. -/
structure IsRun (digits : List UInt8) : Prop where
  nonempty : digits ≠ []
  length : paddingLength digits < 6
  zero : padding digits = 0

instance (digits : List UInt8) : Decidable (IsRun digits) :=
  decidable_of_iff (digits ≠ [] ∧ paddingLength digits < 6 ∧ padding digits = 0)
    ⟨fun h => ⟨h.1, h.2.1, h.2.2⟩, fun h => ⟨h.nonempty, h.length, h.zero⟩⟩

/-- A run whose padding is zero, however long it is. -/
def IsZeroPadded (digits : List UInt8) : Prop := digits ≠ [] ∧ padding digits = 0

instance (digits : List UInt8) : Decidable (IsZeroPadded digits) :=
  inferInstanceAs (Decidable (_ ∧ _))

theorem IsRun.zeroPadded {digits : List UInt8} (h : IsRun digits) : IsZeroPadded digits :=
  ⟨h.nonempty, h.zero⟩

@[simp] theorem padding_nil : padding [] = 0 := rfl

/-- The texts whose runs meet a condition, the one that ends with the text another one. -/
inductive Text (run last : List UInt8 → Prop) : List UInt8 → Prop
  | nil : Text run last []
  | direct {b : UInt8} {bs : List UInt8} (hlegal : isLegalUTF7 b = true) (hplus : b.toNat ≠ plus)
      (h : Text run last bs) : Text run last (b :: bs)
  | escape {bs : List UInt8} (h : Text run last bs) :
      Text run last (UInt8.ofNat plus :: UInt8.ofNat minus :: bs)
  | minus {digits bs : List UInt8} (hdigits : ∀ b ∈ digits, IsBase64 b) (hrun : run digits)
      (h : Text run last bs) :
      Text run last (UInt8.ofNat plus :: (digits ++ UInt8.ofNat minus :: bs))
  | character {digits bs : List UInt8} {b : UInt8} (hdigits : ∀ b ∈ digits, IsBase64 b)
      (hrun : run digits) (hlegal : isLegalUTF7 b = true) (hbase64 : ¬ IsBase64 b)
      (hminus : b.toNat ≠ Utf7.minus) (h : Text run last (b :: bs)) :
      Text run last (UInt8.ofNat plus :: (digits ++ b :: bs))
  | last {digits : List UInt8} (hdigits : ∀ b ∈ digits, IsBase64 b) (hlast : last digits) :
      Text run last (UInt8.ofNat plus :: digits)

theorem Text.mono {run last run' last' : List UInt8 → Prop}
    (hrun : ∀ digits, run digits → run' digits)
    (hlast : ∀ digits, last digits → last' digits) (h : Text run last bs) : Text run' last' bs := by
  induction h with
  | nil => exact .nil
  | direct hlegal hplus _ ih => exact .direct hlegal hplus ih
  | escape _ ih => exact .escape ih
  | minus hdigits h _ ih => exact .minus hdigits (hrun _ h) ih
  | character hdigits h hlegal hbase64 hminus _ ih =>
    exact .character hdigits (hrun _ h) hlegal hbase64 hminus ih
  | last hdigits h => exact .last hdigits (hlast _ h)

section Recognizes

variable (run last : List UInt8 → Prop) [DecidablePred run] [DecidablePred last] {b : UInt8}

/-- A reader of texts, with the digits of the run that it is in. -/
def recognizes : Option (List UInt8) → List UInt8 → Bool
  | none, [] => true
  | none, b :: bs =>
    if b.toNat = plus then recognizes (some []) bs else isLegalUTF7 b && recognizes none bs
  | some digits, [] => decide (last digits)
  | some digits, b :: bs =>
    if IsBase64 b then recognizes (some (digits ++ [b])) bs
    else if b.toNat = minus then decide (digits = [] ∨ run digits) && recognizes none bs
    else isLegalUTF7 b && decide (run digits) && recognizes none bs

variable {run last}

theorem plus_toNat (h : b.toNat = plus) : b = UInt8.ofNat plus := by
  rw [← h, UInt8.ofNat_toNat]

theorem minus_toNat (h : b.toNat = minus) : b = UInt8.ofNat minus := by
  rw [← h, UInt8.ofNat_toNat]

theorem toNat_ne_plus (h : ¬ IsBase64 b) : b.toNat ≠ plus := by
  intro hplus
  rw [plus_toNat hplus] at h
  exact h (by decide)

theorem not_isBase64_minus : ¬ IsBase64 (UInt8.ofNat minus) := by decide

theorem recognizes_plus (bs : List UInt8) :
    recognizes run last none (UInt8.ofNat plus :: bs) = recognizes run last (some []) bs := by
  rw [recognizes, if_pos (by decide)]

theorem recognizes_direct (hplus : b.toNat ≠ plus) (bs : List UInt8) :
    recognizes run last none (b :: bs) = (isLegalUTF7 b && recognizes run last none bs) := by
  rw [recognizes, if_neg hplus]

theorem recognizes_digits {digits' : List UInt8} (hdigits : ∀ b ∈ digits', IsBase64 b)
    (digits bs : List UInt8) : recognizes run last (some digits) (digits' ++ bs) =
      recognizes run last (some (digits ++ digits')) bs := by
  induction digits' generalizing digits with
  | nil => rw [List.nil_append, List.append_nil]
  | cons b digits' ih =>
    rw [List.cons_append, recognizes, if_pos (hdigits b (List.mem_cons_self ..)),
      ih fun b hb => hdigits b (List.mem_cons_of_mem _ hb), List.append_assoc,
        List.singleton_append]

theorem recognizes_run {digits : List UInt8} (hdigits : ∀ b ∈ digits, IsBase64 b)
    (bs : List UInt8) :
    recognizes run last none (UInt8.ofNat plus :: (digits ++ bs)) =
      recognizes run last (some digits) bs := by
  rw [recognizes_plus, recognizes_digits hdigits, List.nil_append]

theorem Text.recognizes (h : Text run last bs) : recognizes run last none bs = true := by
  induction h with
  | nil => rfl
  | direct hlegal hplus _ ih => rw [recognizes_direct hplus, hlegal, ih, Bool.and_self]
  | escape _ ih =>
    rw [recognizes_plus, Utf7.recognizes, if_neg not_isBase64_minus, if_pos (by decide), ih,
      decide_eq_true (Or.inl rfl), Bool.and_self]
  | minus hdigits hrun _ ih =>
    rw [recognizes_run hdigits, Utf7.recognizes, if_neg not_isBase64_minus, if_pos (by decide), ih,
      decide_eq_true (Or.inr hrun), Bool.and_self]
  | @character digits bs b hdigits hrun hlegal hbase64 hminus _ ih =>
    rw [recognizes_direct (toNat_ne_plus hbase64)] at ih
    rw [recognizes_run hdigits, Utf7.recognizes, if_neg hbase64, if_neg hminus, decide_eq_true hrun,
      Bool.and_true, ih]
  | @last digits hdigits hlast =>
    have hread := @recognizes_run run last _ _ digits hdigits []
    rw [List.append_nil] at hread
    rw [hread, Utf7.recognizes, decide_eq_true hlast]

theorem Text.of_recognizes (bs : List UInt8) :
    (Utf7.recognizes run last none bs = true → Text run last bs) ∧
      ∀ digits, (∀ b ∈ digits, IsBase64 b) → Utf7.recognizes run last (some digits) bs = true →
        Text run last (UInt8.ofNat plus :: (digits ++ bs)) := by
  induction bs with
  | nil =>
    refine ⟨fun _ => .nil, fun digits hdigits h => ?_⟩
    rw [Utf7.recognizes, decide_eq_true_iff] at h
    rw [List.append_nil]
    exact .last hdigits h
  | cons b bs ih =>
    obtain ⟨ihdirect, ihrun⟩ := ih
    refine ⟨fun h => ?_, fun digits hdigits h => ?_⟩
    · rw [Utf7.recognizes] at h
      split at h
      · next hplus =>
        rw [plus_toNat hplus]
        exact ihrun [] (fun _ hb => absurd hb (List.not_mem_nil)) h
      · next hplus =>
        rw [Bool.and_eq_true] at h
        exact .direct h.1 hplus (ihdirect h.2)
    rw [Utf7.recognizes] at h
    split at h
    · next hbase64 =>
      have hmore := ihrun (digits ++ [b]) (fun c hc => ?_) h
      · rwa [List.append_assoc, List.singleton_append] at hmore
      rcases List.mem_append.mp hc with hc | hc
      · exact hdigits c hc
      · rwa [List.mem_singleton.mp hc]
    next hbase64 =>
    split at h
    · next hminus =>
      rw [Bool.and_eq_true, decide_eq_true_iff] at h
      rw [minus_toNat hminus]
      rcases h.1 with hnil | hrun
      · rw [hnil]
        exact .escape (ihdirect h.2)
      · exact .minus hdigits hrun (ihdirect h.2)
    · next hminus =>
      rw [Bool.and_eq_true, Bool.and_eq_true, decide_eq_true_iff] at h
      exact .character hdigits h.1.2 h.1.1 hbase64 hminus
        (.direct h.1.1 (toNat_ne_plus hbase64) (ihdirect h.2))

theorem recognizes_iff (bs : List UInt8) : recognizes run last none bs = true ↔ Text run last bs :=
  ⟨(Text.of_recognizes bs).1, Text.recognizes⟩

instance (bs : List UInt8) : Decidable (Text run last bs) :=
  decidable_of_iff _ (recognizes_iff bs)

end Recognizes

end Icu.Utf7
