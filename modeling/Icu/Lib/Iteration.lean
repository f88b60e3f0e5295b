import Mathlib.Data.List.Induction

/-! # Iterating over the pieces of a string

A string of a given length is cut into pieces, each with a value. Iterating forward reads
the piece at an offset, iterating backward reads the piece before it. If both read the
pieces of one tiling, then they yield the same list, in opposite orders.
-/

namespace Icu.Lib.Iteration

variable {β γ : Type}

/-- `while(i<length) { NEXT(i) }`: the start, the limit and the value of each piece. -/
def forward (next : Nat → Option (β × Nat)) (length : Nat) :
    Nat → Nat → Option (List (Nat × Nat × β))
  | 0, i => if i < length then none else some []
  | fuel + 1, i =>
    if i < length then
      match next i with
      | none => none
      | some (v, j) => (forward next length fuel j).map ((i, j, v) :: ·)
    else some []

/-- `while(i>0) { PREV(i) }`. -/
def backward (prev : Nat → Option (β × Nat)) : Nat → Nat → Option (List (Nat × Nat × β))
  | 0, i => if 0 < i then none else some []
  | fuel + 1, i =>
    if 0 < i then
      match prev i with
      | none => none
      | some (v, j) => (backward prev fuel j).map ((j, i, v) :: ·)
    else some []

/-- The pieces follow each other from `a` to `b`. -/
def Tiles : List (Nat × Nat × β) → Nat → Nat → Prop
  | [], a, b => a = b
  | (i, j, _) :: us, a, b => i = a ∧ i < j ∧ Tiles us j b

theorem Tiles.length_le : ∀ {us : List (Nat × Nat × β)} {a b : Nat}, Tiles us a b →
    a + us.length ≤ b
  | [], a, b, h => by
    have : a = b := h
    simp [this]
  | (i, j, v) :: us, a, b, ⟨ha, hlt, h⟩ => by
    have := h.length_le
    simp only [List.length_cons]
    omega

theorem tiles_append : ∀ {us vs : List (Nat × Nat × β)} {a b : Nat},
    Tiles (us ++ vs) a b ↔ ∃ m, Tiles us a m ∧ Tiles vs m b
  | [], vs, a, b => by
    constructor
    · exact fun h => ⟨a, rfl, h⟩
    rintro ⟨m, rfl, h⟩
    exact h
  | (i, j, v) :: us, vs, a, b => by
    simp only [List.cons_append, Tiles, tiles_append]
    constructor
    · rintro ⟨ha, hlt, m, h1, h2⟩
      exact ⟨m, ⟨ha, hlt, h1⟩, h2⟩
    · rintro ⟨m, ⟨ha, hlt, h1⟩, h2⟩
      exact ⟨ha, hlt, m, h1, h2⟩

theorem Tiles.exists_mem : ∀ {us : List (Nat × Nat × β)} {a b : Nat}, Tiles us a b →
    ∀ i, a ≤ i → i < b → ∃ u ∈ us, u.1 ≤ i ∧ i < u.2.1
  | [], a, b, h, i, h0, h1 => by
    have : a = b := h
    omega
  | (k, j, v) :: us, a, b, ⟨ha, hlt, h⟩, i, h0, h1 => by
    by_cases hij : i < j
    · exact ⟨(k, j, v), List.mem_cons_self, by simp only; omega, hij⟩
    obtain ⟨u, hu, hui⟩ := h.exists_mem i (by omega) h1
    exact ⟨u, List.mem_cons_of_mem _ hu, hui⟩

theorem Tiles.map {us : List (Nat × Nat × β)} {a b : Nat} (f : β → γ) (h : Tiles us a b) :
    Tiles (us.map fun u => (u.1, u.2.1, f u.2.2)) a b := by
  induction us generalizing a with
  | nil => exact h
  | cons u us ih => exact ⟨h.1, h.2.1, ih h.2.2⟩

theorem forward_of_tiles {next : Nat → Option (β × Nat)} {length : Nat} :
    ∀ {us : List (Nat × Nat × β)} {a : Nat} (fuel : Nat), Tiles us a length →
      (∀ u ∈ us, next u.1 = some (u.2.2, u.2.1)) → us.length ≤ fuel →
      forward next length fuel a = some us
  | [], a, fuel, h, _, _ => by
    have : a = length := h
    have hno : ¬ a < length := by omega
    cases fuel <;> simp [forward, hno]
  | (i, j, v) :: us, a, 0, _, _, hf => by simp at hf
  | (i, j, v) :: us, a, fuel + 1, ⟨ha, hlt, h⟩, hn, hf => by
    subst ha
    have hle := h.length_le
    have hi : i < length := by omega
    have hnext := hn (i, j, v) List.mem_cons_self
    have hrest := forward_of_tiles fuel h (fun u hu => hn u (List.mem_cons_of_mem _ hu))
      (by simpa using hf)
    simp only at hnext
    simp only [forward, if_pos hi, hnext, hrest, Option.map_some]

theorem backward_of_tiles {prev : Nat → Option (β × Nat)} (us : List (Nat × Nat × β)) :
    ∀ {b : Nat} (fuel : Nat), Tiles us 0 b → (∀ u ∈ us, prev u.2.1 = some (u.2.2, u.1)) →
      us.length ≤ fuel → backward prev fuel b = some us.reverse := by
  induction us using List.reverseRecOn with
  | nil =>
    intro b fuel h _ _
    have : 0 = b := h
    subst this
    cases fuel <;> simp [backward]
  | append_singleton us u ih =>
    intro b fuel h hp hf
    obtain ⟨i, j, v⟩ := u
    obtain ⟨m, hus, ⟨him, hlt, hjb⟩⟩ := tiles_append.mp h
    have hjb' : j = b := hjb
    subst him hjb'
    obtain ⟨fuel, rfl⟩ : ∃ f, fuel = f + 1 := by
      cases fuel with
      | zero => simp at hf
      | succ fuel => exact ⟨fuel, rfl⟩
    have hprev := hp (i, j, v) (by simp)
    have hrest := ih fuel hus (fun u hu => hp u (by simp [hu])) (by simpa using hf)
    simp only at hprev
    simp only [backward, if_pos (show 0 < j by omega), hprev, hrest, Option.map_some,
      List.reverse_append, List.reverse_cons, List.reverse_nil, List.nil_append,
      List.cons_append]

end Icu.Lib.Iteration
