import Mathlib.Data.List.Lex
import Mathlib.Order.Lattice

/-! # Codes that preserve order

An encoder with a state writes a sequence for each symbol. If the sequences of different
symbols differ before either of them ends, and if they differ in the order of the symbols, then
the order of two encoded strings is that of the strings.
-/

namespace Icu.Lib.OrderedCode

section Diverges

variable {β : Type} [LT β]

/-- The first list is less where the two lists first differ, before either of them ends. -/
inductive Diverges : List β → List β → Prop
  | head {b b' : β} {x y : List β} (h : b < b') : Diverges (b :: x) (b' :: y)
  | tail (b : β) {x y : List β} (h : Diverges x y) : Diverges (b :: x) (b :: y)

theorem Diverges.append {x y : List β} (h : Diverges x y) (u v : List β) :
    Diverges (x ++ u) (y ++ v) := by
  induction h with
  | head h => exact .head h
  | tail b _ ih => exact .tail b ih

theorem Diverges.lt {x y : List β} (h : Diverges x y) : x < y := by
  induction h with
  | head h => exact List.Lex.rel h
  | tail b _ ih => exact List.Lex.cons ih

theorem Diverges.trans {x y z : List β} (htrans : ∀ {a b c : β}, a < b → b < c → a < c)
    (h : Diverges x y) (h' : Diverges y z) : Diverges x z := by
  induction h generalizing z with
  | head h =>
    cases h' with
    | head h' => exact .head (htrans h h')
    | tail => exact .head h
  | tail b _ ih =>
    cases h' with
    | head h' => exact .head h'
    | tail _ h' => exact .tail b (ih h')

theorem diverges_of_succ (htrans : ∀ {a b c : β}, a < b → b < c → a < c) {f : Int → List β}
    {lo hi : Int} (hsucc : ∀ x, lo ≤ x → x < hi → Diverges (f x) (f (x + 1))) {x y : Int}
    (hx : lo ≤ x) (hy : y ≤ hi) (hlt : x < y) : Diverges (f x) (f y) := by
  obtain ⟨n, rfl⟩ : ∃ n : Nat, y = x + n + 1 := ⟨(y - x - 1).toNat, by omega⟩
  induction n with
  | zero =>
    rw [Int.natCast_zero, Int.add_zero] at hy ⊢
    exact hsucc x hx (by omega)
  | succ n ih =>
    have hnext : x + ((n + 1 : Nat) : Int) + 1 = x + n + 1 + 1 := by omega
    rw [hnext]
    exact (ih (by omega) (by omega)).trans htrans (hsucc _ (by omega) (by omega))

theorem append_lt_append (p : List β) {x y : List β} (h : x < y) : p ++ x < p ++ y := by
  induction p with
  | nil => exact h
  | cons b p ih => exact List.Lex.cons ih

end Diverges

variable {σ α β : Type} (step : σ → α → σ × List β)

def encode : σ → List α → List β
  | _, [] => []
  | s, a :: as => (step s a).2 ++ encode (step s a).1 as

structure Ordered [LT α] [LT β] (valid : σ → Prop) (symbol : α → Prop) : Prop where
  next : ∀ {s a}, valid s → symbol a → valid (step s a).1
  writes : ∀ {s a}, valid s → symbol a → (step s a).2 ≠ []
  diverges : ∀ {s a a'}, valid s → symbol a → symbol a' → a < a' →
    Diverges (step s a).2 (step s a').2

variable {step} [LinearOrder α] [LT β] {valid : σ → Prop} {symbol : α → Prop}

theorem Ordered.encode_lt (h : Ordered step valid symbol) {s : σ} (hs : valid s) {as as' : List α}
    (ha : ∀ a ∈ as, symbol a) (ha' : ∀ a ∈ as', symbol a) (hlt : as < as') :
    encode step s as < encode step s as' := by
  induction hlt generalizing s with
  | @nil a as' =>
    obtain ⟨b, bs, hout⟩ := List.exists_cons_of_ne_nil (h.writes hs (ha' a List.mem_cons_self))
    rw [encode, encode, hout]
    exact List.Lex.nil
  | @rel a as a' as' hlt =>
    exact ((h.diverges hs (ha a List.mem_cons_self) (ha' a' List.mem_cons_self) hlt).append _ _).lt
  | @cons a as as' _ ih =>
    obtain ⟨hhead, htail⟩ := List.forall_mem_cons.mp ha
    exact append_lt_append _ (ih (h.next hs hhead) htail (List.forall_mem_cons.mp ha').2)

theorem Ordered.encode_lt_iff [Std.Asymm (fun b b' : β => b < b')] (h : Ordered step valid symbol)
    {s : σ} (hs : valid s) {as as' : List α} (ha : ∀ a ∈ as, symbol a) (ha' : ∀ a ∈ as', symbol a) :
    as < as' ↔ encode step s as < encode step s as' := by
  refine ⟨h.encode_lt hs ha ha', fun hlt => ?_⟩
  rcases lt_trichotomy as as' with hless | rfl | hmore
  · exact hless
  · exact absurd hlt (List.lt_irrefl _)
  · exact absurd hlt (List.lt_asymm (h.encode_lt hs ha' ha hmore))

end Icu.Lib.OrderedCode
