import Icu.BiDi.Reorder

/-! # Runs in visual order

A list of runs stands for the order of the text positions on the line: each run has the
positions from the visual limit before it up to its own, forward or backward.
-/

namespace Icu.BiDi

open Lib.LevelReversal

variable {bit : Run → Bool}

/-- The limits increase from `a` to `b`. -/
def Limits : Nat → List Run → Nat → Prop
  | a, [], b => a = b
  | a, run :: runs, b => a < run.visualLimit ∧ Limits run.visualLimit runs b

/-- The text positions in visual order, behind the visual position `a`. -/
def visualOrder : Nat → List Run → List Nat
  | _, [] => []
  | a, run :: runs =>
    (List.range (run.visualLimit - a)).map (run.logicalAt (run.visualLimit - a)) ++
      visualOrder run.visualLimit runs

/-- The runs are a partition of the text, logically and visually. -/
structure Partition (length : Nat) (runs : List Run) : Prop where
  limits : Limits 0 runs length
  perm : (visualOrder 0 runs).Perm (List.range length)

theorem Limits.le : ∀ {runs : List Run} {a b : Nat}, Limits a runs b → a ≤ b
  | [], a, b, h => Nat.le_of_eq h
  | run :: runs, a, b, h => by
    have := h.2.le
    have := h.1
    omega

theorem Limits.length_visualOrder : ∀ {runs : List Run} {a b : Nat}, Limits a runs b →
    (visualOrder a runs).length = b - a
  | [], a, b, h => by
    have : a = b := h
    simp [visualOrder, this]
  | run :: runs, a, b, h => by
    have hlt := h.1
    have hle := h.2.le
    rw [visualOrder, List.length_append, List.length_map, List.length_range,
      h.2.length_visualOrder]
    omega

theorem foldl_set_range (f : Nat → Nat) (g : Nat → Int) (n : Nat) (m : IndexMap) (i : Nat)
    (hf : ∀ j k, j < n → k < n → f j = f k → j = k) :
    (∀ j < n, (List.range n).foldl (fun m j => m.set (f j) (g j)) m (f j) = some (g j)) ∧
      ((∀ j < n, f j ≠ i) → (List.range n).foldl (fun m j => m.set (f j) (g j)) m i = m i) := by
  induction n with
  | zero => simp
  | succ n ih =>
    have ih := ih fun j k hj hk => hf j k (by omega) (by omega)
    rw [List.range_succ, List.foldl_append, List.foldl_cons, List.foldl_nil]
    constructor
    · intro j hj
      by_cases hjn : j = n
      · simp [IndexMap.set, hjn]
      have hne : f j ≠ f n := fun h => hjn (hf j n hj (by omega) h)
      simp [IndexMap.set, hne, ih.1 j (by omega)]
    · intro hi
      have hne : i ≠ f n := fun h => hi n (by omega) h.symm
      simp [IndexMap.set, hne, ih.2 fun j hj => hi j (by omega)]

def IndexMap.store (m : IndexMap) (a : Nat) (xs : List Int) : IndexMap :=
  fun i => if a ≤ i ∧ i < a + xs.length then xs[i - a]? else m i

theorem foldl_set_eq_store (a n : Nat) (g : Nat → Int) (m : IndexMap) :
    (List.range n).foldl (fun m j => m.set (a + j) (g j)) m = m.store a ((List.range n).map g) := by
  funext i
  obtain ⟨h1, h2⟩ := foldl_set_range (fun j => a + j) g n m i fun j k _ _ h => by omega
  rw [IndexMap.store, List.length_map, List.length_range]
  split
  · next h =>
    obtain ⟨j, rfl⟩ : ∃ j, i = a + j := ⟨i - a, by omega⟩
    have hj : j < n := by omega
    simp [h1 j hj, hj]
  · next h => exact h2 fun j hj => by omega

theorem IndexMap.store_append (m : IndexMap) (a : Nat) (xs ys : List Int) :
    (m.store a xs).store (a + xs.length) ys = m.store a (xs ++ ys) := by
  funext i
  simp only [store, List.length_append]
  by_cases h1 : a ≤ i ∧ i < a + xs.length
  · rw [if_neg (by omega), if_pos h1, if_pos (by omega), List.getElem?_append_left (by omega)]
  by_cases h2 : a + xs.length ≤ i ∧ i < a + xs.length + ys.length
  · rw [if_pos h2, if_pos (by omega), List.getElem?_append_right (by omega),
      show i - (a + xs.length) = i - a - xs.length by omega]
  · rw [if_neg h2, if_neg h1, if_neg (by omega)]

theorem UBiDi.fillVisualMap_eq : ∀ {runs : List Run} {a b : Nat} (m : IndexMap), Limits a runs b →
    fillVisualMap runs a m = m.store a ((visualOrder a runs).map Nat.cast)
  | [], a, b, m, h => by
    funext i
    simp [fillVisualMap, visualOrder, IndexMap.store]
  | run :: runs, a, b, m, h => by
    have hlt := h.1
    have hmax : max 1 (run.visualLimit - a) = run.visualLimit - a := by omega
    rw [fillVisualMap]
    rw [hmax, foldl_set_eq_store, show a + (run.visualLimit - a) = run.visualLimit by omega,
      fillVisualMap_eq _ h.2, visualOrder, List.map_append, List.map_map, ← IndexMap.store_append]
    rw [List.length_map, List.length_range,
      show a + (run.visualLimit - a) = run.visualLimit by omega]
    rfl

/-- Set the direction bits, and make the lengths the limits. -/
def withLimits (bit : Run → Bool) : Nat → List Run → List Run
  | _, [] => []
  | limit, run :: runs =>
    { run with odd := bit run, visualLimit := limit + run.visualLimit } ::
      withLimits bit (limit + run.visualLimit) runs

/-- The positions of a run, backward if its bit is set. -/
def Run.oriented (bit : Run → Bool) (run : Run) : List Nat :=
  if bit run then run.content.reverse else run.content

theorem length_withLimits (bit : Run → Bool) : ∀ (a : Nat) (runs : List Run),
    (withLimits bit a runs).length = runs.length
  | _, [] => rfl
  | a, run :: runs => by rw [withLimits, List.length_cons, length_withLimits, List.length_cons]

theorem withLimits_append (bit : Run → Bool) : ∀ (a : Nat) (runs runs' : List Run),
    withLimits bit a (runs ++ runs') = withLimits bit a runs ++
      withLimits bit (a + (runs.map Run.visualLimit).sum) runs'
  | a, [], runs' => by simp [withLimits]
  | a, run :: runs, runs' => by
    simp only [List.cons_append, withLimits, List.map_cons, List.sum_cons]
    rw [withLimits_append bit (a + run.visualLimit) runs runs', Nat.add_assoc]

theorem withLimits_congr {bit' : Run → Bool} : ∀ {a : Nat} {runs : List Run},
    (∀ run ∈ runs, bit run = bit' run) → withLimits bit a runs = withLimits bit' a runs
  | _, [], _ => rfl
  | a, run :: runs, h => by
    rw [withLimits, withLimits, h run List.mem_cons_self,
      withLimits_congr fun r hr => h r (List.mem_cons_of_mem run hr)]

theorem limits_withLimits (bit : Run → Bool) : ∀ {a : Nat} {runs : List Run},
    (∀ run ∈ runs, 0 < run.visualLimit) →
      Limits a (withLimits bit a runs) (a + (runs.map Run.visualLimit).sum)
  | a, [], _ => by simp [withLimits, Limits]
  | a, run :: runs, h => by
    have hpos := h run List.mem_cons_self
    refine ⟨by dsimp only; omega, ?_⟩
    have := limits_withLimits bit (a := a + run.visualLimit) fun r hr =>
      h r (List.mem_cons_of_mem run hr)
    rwa [List.map_cons, List.sum_cons, ← Nat.add_assoc]

theorem map_logicalAt (run : Run) (limit : Nat) (odd : Bool) : (List.range run.visualLimit).map
        (Run.logicalAt { run with odd := odd, visualLimit := limit } run.visualLimit) =
      if odd then run.content.reverse else run.content := by
  cases odd with
  | false =>
    simp [Run.logicalAt, Run.content, List.range'_eq_map_range]
  | true =>
    apply List.ext_getElem
    · simp [Run.content]
    intro i h1 h2
    simp only [List.length_map, List.length_range] at h1
    simp [Run.logicalAt, Run.content]
    omega

theorem visualOrder_withLimits (bit : Run → Bool) : ∀ (a : Nat) (runs : List Run),
    visualOrder a (withLimits bit a runs) = runs.flatMap (Run.oriented bit)
  | _, [] => rfl
  | a, run :: runs => by
    rw [withLimits, visualOrder, List.flatMap_cons, visualOrder_withLimits bit _ runs]
    rw [Nat.add_sub_cancel_left, map_logicalAt, Run.oriented]

theorem mem_withLimits : ∀ {a : Nat} {runs : List Run} {run : Run},
    run ∈ withLimits bit a runs → ∃ r ∈ runs, run.insertRemove = r.insertRemove
  | _, [], run, h => by simp [withLimits] at h
  | a, r :: runs, run, h => by
    rcases List.mem_cons.mp h with rfl | h
    · exact ⟨r, List.mem_cons_self, rfl⟩
    obtain ⟨s, hs, heq⟩ := mem_withLimits h
    exact ⟨s, List.mem_cons_of_mem r hs, heq⟩

theorem mem_withVisualStarts : ∀ {a : Nat} {runs : List Run} {v : Nat × Run},
    v ∈ UBiDi.withVisualStarts a (withLimits bit a runs) →
      ∃ run ∈ runs, v.2.logicalStart = run.logicalStart ∧ v.2.odd = bit run ∧
        v.2.visualLimit - v.1 = run.visualLimit
  | _, [], v, h => by simp [withLimits, UBiDi.withVisualStarts] at h
  | a, run :: runs, v, h => by
    rw [withLimits, UBiDi.withVisualStarts] at h
    rcases List.mem_cons.mp h with rfl | h
    · exact ⟨run, List.mem_cons_self, rfl, rfl, by dsimp only; omega⟩
    obtain ⟨r, hr, h⟩ := mem_withVisualStarts h
    exact ⟨r, List.mem_cons_of_mem run hr, h⟩

theorem withVisualStarts_mem {bit : Run → Bool} : ∀ {a : Nat} {runs : List Run} {run : Run},
    run ∈ runs → ∃ v ∈ UBiDi.withVisualStarts a (withLimits bit a runs),
      v.2.logicalStart = run.logicalStart ∧ v.2.odd = bit run ∧
        v.2.visualLimit - v.1 = run.visualLimit
  | a, r :: runs, run, h => by
    rw [withLimits, UBiDi.withVisualStarts]
    rcases List.mem_cons.mp h with rfl | h
    · exact ⟨_, List.mem_cons_self, rfl, rfl, by dsimp only; omega⟩
    obtain ⟨v, hv, h⟩ := @withVisualStarts_mem bit (a + r.visualLimit) _ _ h
    exact ⟨v, List.mem_cons_of_mem _ hv, h⟩

end Icu.BiDi
