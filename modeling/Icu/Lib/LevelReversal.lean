import Mathlib.Data.List.Induction
import Mathlib.Data.List.Chain
import Mathlib.Data.Nat.Bits

/-! # Reversing sequences by level

Elements have levels. A pass for a level reverses every maximal sequence of elements at this
level or higher, and reordering makes the passes from the highest level down. The first part
turns the loops of an in-place implementation into passes over a list. The second part
compares the reordering of elements with the reordering of blocks of elements.
-/

namespace Icu.Lib.LevelReversal

variable {α β : Type} {count start mid first : Nat} {p : Nat → Bool} {xs : List α}

/-- `temp=xs[i]; xs[i]=xs[j]; xs[j]=temp;` -/
def swap (xs : List α) (i j : Nat) : List α :=
  match xs[i]?, xs[j]? with
  | some a, some b => (xs.set i b).set j a
  | _, _ => xs

/-- `while(first<last) { swap(first, last); ++first; --last; }` -/
def swapInward : Nat → List α → Nat → Nat → List α
  | 0, xs, _, _ => xs
  | fuel + 1, xs, first, last =>
    if first < last then swapInward fuel (swap xs first last) (first + 1) (last - 1) else xs

/-- `while(i<count && p(i)) { ++i; }` -/
def skipWhile (p : Nat → Bool) (count : Nat) : Nat → Nat → Nat
  | 0, i => i
  | fuel + 1, i => if i < count ∧ p i = true then skipWhile p count fuel (i + 1) else i

/-- Find each sequence of high positions below `count` and reverse it in place. The loop
looks at the array as it is by then, and continues behind the position that ended the
sequence. -/
def reverseSequences (high : List α → Nat → Bool) (count : Nat) :
    Nat → List α → Nat → List α
  | 0, xs, _ => xs
  | fuel + 1, xs, start =>
    let first := skipWhile (fun i => !high xs i) count count start
    if count ≤ first then xs
    else
      let limit := skipWhile (high xs) count count (first + 1)
      let xs := swapInward count xs first (limit - 1)
      if limit = count then xs else reverseSequences high count fuel xs (limit + 1)

theorem swap_ends (pre mid post : List α) (a b : α) :
    swap (pre ++ (a :: (mid ++ [b])) ++ post) pre.length (pre.length + mid.length + 1) =
      (pre ++ [b]) ++ mid ++ (a :: post) := by
  have ha : (pre ++ (a :: (mid ++ [b])) ++ post)[pre.length]? = some a := by simp
  have hb : (pre ++ (a :: (mid ++ [b])) ++ post)[pre.length + mid.length + 1]? = some b := by
    rw [List.append_assoc, List.getElem?_append_right (by omega)]
    simp [show pre.length + mid.length + 1 - pre.length = mid.length + 1 by omega]
  rw [swap, ha, hb]
  simp only [List.append_assoc, List.cons_append]
  rw [List.set_append_right _ _ (by omega), List.set_append_right _ _ (by omega)]
  simp only [Nat.sub_self, List.set_cons_zero]
  rw [show pre.length + mid.length + 1 - pre.length = mid.length + 1 by omega,
    List.set_cons_succ, List.set_append_right _ _ (by omega)]
  simp

theorem swapInward_eq (mid : List α) : ∀ (fuel : Nat) (pre post : List α), mid.length ≤ fuel →
      swapInward fuel (pre ++ mid ++ post) pre.length (pre.length + mid.length - 1) =
        pre ++ mid.reverse ++ post := by
  induction mid using List.bidirectionalRec with
  | nil =>
    intro fuel pre post _
    cases fuel with
    | zero => simp [swapInward]
    | succ fuel => simp [swapInward]
  | singleton a =>
    intro fuel pre post _
    cases fuel with
    | zero => simp [swapInward]
    | succ fuel => simp [swapInward]
  | cons_append a mid b ih =>
    intro fuel pre post hf
    simp only [List.length_cons, List.length_append, List.length_nil] at hf ⊢
    obtain ⟨fuel, rfl⟩ : ∃ f, fuel = f + 1 := ⟨fuel - 1, by omega⟩
    have hlast : pre.length + (mid.length + (0 + 1) + 1) - 1 =
        pre.length + mid.length + 1 := by omega
    have hrec := ih fuel (pre ++ [b]) (a :: post) (by omega)
    rw [List.length_append, List.length_singleton] at hrec
    have hnext : pre.length + 1 + mid.length - 1 = pre.length + mid.length + 1 - 1 := by omega
    rw [hnext] at hrec
    rw [hlast, swapInward, if_pos (by omega), swap_ends, hrec]
    simp

theorem skipWhile_spec (p : Nat → Bool) (count : Nat) : ∀ (fuel i : Nat),
    i ≤ count → count - i ≤ fuel →
      i ≤ skipWhile p count fuel i ∧ skipWhile p count fuel i ≤ count ∧
        (∀ j, i ≤ j → j < skipWhile p count fuel i → p j = true) ∧
        (skipWhile p count fuel i < count → p (skipWhile p count fuel i) = false) := by
  intro fuel
  induction fuel with
  | zero =>
    intro i hi hf
    simp only [skipWhile]
    exact ⟨le_refl i, hi, fun j h1 h2 => by omega, fun h => by omega⟩
  | succ fuel ih =>
    intro i hi hf
    rw [skipWhile]
    split
    · next hp =>
      obtain ⟨h1, h2, h3, h4⟩ := ih (i + 1) (by omega) (by omega)
      refine ⟨by omega, h2, ?_, h4⟩
      intro j hj hlt
      rcases Nat.eq_or_lt_of_le hj with rfl | hlt'
      · exact hp.2
      · exact h3 j hlt' hlt
    · next hp =>
      refine ⟨le_refl i, hi, fun j h1 h2 => by omega, ?_⟩
      intro hlt
      simpa [hlt] using hp

/-! ## One pass over a list -/

/-- Reverse every maximal sequence of marked elements; `acc` is the sequence so far, in
reverse. Elements behind the marks stay. -/
def reverseMarked : List Bool → List α → List α → List α
  | true :: marks, x :: xs, acc => reverseMarked marks xs (x :: acc)
  | false :: marks, x :: xs, acc => acc ++ x :: reverseMarked marks xs []
  | [], xs, acc => acc ++ xs
  | _ :: _, [], acc => acc

@[simp] theorem reverseMarked_nil (marks : List Bool) (acc : List α) :
    reverseMarked marks [] acc = acc := by
  cases marks with
  | nil => simp [reverseMarked]
  | cons b marks => cases b <;> simp [reverseMarked]

@[simp] theorem reverseMarked_noMarks (xs acc : List α) : reverseMarked [] xs acc = acc ++ xs := by
  rw [reverseMarked]

@[simp] theorem reverseMarked_true (marks : List Bool) (x : α) (xs acc : List α) :
    reverseMarked (true :: marks) (x :: xs) acc = reverseMarked marks xs (x :: acc) := by
  rw [reverseMarked]

@[simp] theorem reverseMarked_false (marks : List Bool) (x : α) (xs acc : List α) :
    reverseMarked (false :: marks) (x :: xs) acc = acc ++ x :: reverseMarked marks xs [] := by
  rw [reverseMarked]

theorem reverseMarked_marked (marks : List Bool) (xs : List α) : ∀ (seq acc : List α),
    reverseMarked (List.replicate seq.length true ++ marks) (seq ++ xs) acc =
      reverseMarked marks xs (seq.reverse ++ acc)
  | [], acc => by simp
  | x :: seq, acc => by
    simp only [List.length_cons, List.replicate_succ, List.cons_append, reverseMarked_true,
      reverseMarked_marked marks xs seq (x :: acc), List.reverse_cons, List.append_assoc,
      List.nil_append]

theorem reverseMarked_unmarked (marks : List Bool) (xs : List α) : ∀ (seq : List α),
    reverseMarked (List.replicate seq.length false ++ marks) (seq ++ xs) [] =
      seq ++ reverseMarked marks xs []
  | [] => by simp
  | x :: seq => by
    simp only [List.length_cons, List.replicate_succ, List.cons_append, reverseMarked_false,
      reverseMarked_unmarked marks xs seq, List.nil_append]

theorem reverseMarked_map (f : α → β) : ∀ (marks : List Bool) (xs acc : List α),
    (reverseMarked marks xs acc).map f = reverseMarked marks (xs.map f) (acc.map f)
  | [], xs, acc => by simp
  | b :: marks, [], acc => by simp
  | true :: marks, x :: xs, acc => by
    simp only [reverseMarked_true, List.map_cons, reverseMarked_map f marks xs (x :: acc)]
  | false :: marks, x :: xs, acc => by
    simp only [reverseMarked_false, List.map_append, List.map_cons, List.map_nil,
      reverseMarked_map f marks xs []]

theorem reverseMarked_perm : ∀ (marks : List Bool) (xs acc : List α),
    (reverseMarked marks xs acc).Perm (acc ++ xs)
  | [], xs, acc => by simp
  | b :: marks, [], acc => by simp
  | true :: marks, x :: xs, acc => by
    rw [reverseMarked_true]
    exact (reverseMarked_perm marks xs (x :: acc)).trans List.perm_middle.symm
  | false :: marks, x :: xs, acc => by
    rw [reverseMarked_false]
    exact ((reverseMarked_perm marks xs []).cons x).append_left acc

/-- The marks of the positions from `start` up to `count`. -/
def marks (p : Nat → Bool) (start count : Nat) : List Bool :=
  (List.range' start (count - start)).map p

theorem marks_eq_replicate_append {b : Bool}
    (h1 : start ≤ mid) (h2 : mid ≤ count) (hp : ∀ j, start ≤ j → j < mid → p j = b) :
    marks p start count = List.replicate (mid - start) b ++ marks p mid count := by
  have hsplit : List.range' start (count - start) =
      List.range' start (mid - start) ++ List.range' mid (count - mid) := by
    rw [show count - start = (mid - start) + (count - mid) by omega, ← List.range'_append_1,
      show start + (mid - start) = mid by omega]
  have hlow : (List.range' start (mid - start)).map p = List.replicate (mid - start) b := by
    apply List.eq_replicate_iff.mpr
    refine ⟨by simp, ?_⟩
    intro c hc
    obtain ⟨j, hj, rfl⟩ := List.mem_map.mp hc
    obtain ⟨h1, h2⟩ := List.mem_range'_1.mp hj
    exact hp j h1 (by omega)
  rw [marks, hsplit, List.map_append, hlow, marks]

theorem take_append_drop_between (xs : List α) (h : start ≤ mid) :
    (xs.drop start).take (mid - start) ++ xs.drop mid = xs.drop start := by
  have := List.take_append_drop (mid - start) (xs.drop start)
  rwa [List.drop_drop, show start + (mid - start) = mid by omega] at this

theorem length_take_between (xs : List α) {start mid : Nat} (h : mid ≤ xs.length) :
    ((xs.drop start).take (mid - start)).length = mid - start := by
  rw [List.length_take, List.length_drop]
  omega

theorem reverseMarked_low (h1 : start ≤ first) (h2 : first ≤ count) (h3 : count ≤ xs.length)
    (hp : ∀ j, start ≤ j → j < first → p j = false) :
    xs.take start ++ reverseMarked (marks p start count) (xs.drop start) [] =
      xs.take first ++ reverseMarked (marks p first count) (xs.drop first) [] := by
  have hun := reverseMarked_unmarked (marks p first count) (xs.drop first)
    ((xs.drop start).take (first - start))
  rw [length_take_between xs (by omega), take_append_drop_between xs h1] at hun
  rw [marks_eq_replicate_append h1 h2 hp, hun, ← List.append_assoc, ← List.take_add,
    show start + (first - start) = first by omega]

theorem reverseMarked_high {limit : Nat}
    (h1 : first ≤ limit) (h2 : limit ≤ count) (h3 : count ≤ xs.length)
    (hp : ∀ j, first ≤ j → j < limit → p j = true) :
    reverseMarked (marks p first count) (xs.drop first) [] =
      reverseMarked (marks p limit count) (xs.drop limit)
        ((xs.drop first).take (limit - first)).reverse := by
  have hmk := reverseMarked_marked (marks p limit count) (xs.drop limit)
    ((xs.drop first).take (limit - first)) []
  rw [length_take_between xs (by omega), take_append_drop_between xs h1, List.append_nil] at hmk
  rw [marks_eq_replicate_append h1 h2 hp, hmk]

theorem swapInward_between {xs : List α} {first limit count : Nat} (h1 : first ≤ limit)
    (h2 : limit ≤ count) (h3 : count ≤ xs.length) : swapInward count xs first (limit - 1) =
      xs.take first ++ ((xs.drop first).take (limit - first)).reverse ++ xs.drop limit := by
  have h := swapInward_eq ((xs.drop first).take (limit - first)) count (xs.take first)
    (xs.drop limit) (by rw [length_take_between xs (by omega)]; omega)
  rw [length_take_between xs (by omega), List.append_assoc, take_append_drop_between xs h1,
    List.take_append_drop, List.length_take, Nat.min_eq_left (by omega),
    show first + (limit - first) - 1 = limit - 1 by omega] at h
  exact h

theorem swapInward_all (xs : List α) :
    swapInward xs.length xs 0 (xs.length - 1) = xs.reverse := by
  simpa using @swapInward_between _ xs 0 _ _ (Nat.zero_le xs.length) (le_refl _) (le_refl _)

/-- The in-place loop is a pass over the list, with the marks that the array has at its
beginning. -/
theorem reverseSequences_eq {high : List α → Nat → Bool}
    (hlocal : ∀ {xs ys : List α} {i : Nat}, xs.drop i = ys.drop i → high xs i = high ys i)
    : ∀ (fuel : Nat) (xs : List α) (start : Nat),
      count ≤ xs.length → start ≤ count → count - start < fuel →
        reverseSequences high count fuel xs start =
          xs.take start ++ reverseMarked (marks (high xs) start count) (xs.drop start) [] := by
  intro fuel
  induction fuel with
  | zero => intro xs start _ _ hf; omega
  | succ fuel ih =>
    intro xs start hlen hstart hf
    rw [reverseSequences]
    obtain ⟨hf1, hf2, hf3, hf4⟩ :=
      skipWhile_spec (fun i => !high xs i) count count start hstart (by omega)
    generalize skipWhile (fun i => !high xs i) count count start = first at *
    simp only [Bool.not_eq_eq_eq_not, Bool.not_true, Bool.not_false] at hf3 hf4
    rw [reverseMarked_low hf1 hf2 hlen hf3]
    by_cases hend : count ≤ first
    · have : count - first = 0 := by omega
      simp [hend, marks, this]
    obtain ⟨hl1, hl2, hl3, hl4⟩ :=
      skipWhile_spec (high xs) count count (first + 1) (by omega) (by omega)
    generalize skipWhile (high xs) count count (first + 1) = limit at *
    have hseq : ∀ j, first ≤ j → j < limit → high xs j = true := by
      intro j h1 h2
      rcases Nat.eq_or_lt_of_le h1 with rfl | h1
      · exact hf4 (by omega)
      · exact hl3 j h1 h2
    have hle : first ≤ limit := by omega
    have hseqLength := @length_take_between _ xs first _ (show limit ≤ xs.length by omega)
    rw [if_neg hend, reverseMarked_high hle hl2 hlen hseq]
    dsimp only
    rw [swapInward_between hle hl2 hlen]
    generalize (xs.drop first).take (limit - first) = seq at hseqLength ⊢
    by_cases hcount : limit = count
    · rw [if_pos hcount, hcount]
      simp [marks]
    -- the position that ended the sequence stays, and the rest is as it was
    have hx : xs.drop limit = xs[limit] :: xs.drop (limit + 1) :=
      List.drop_eq_getElem_cons (by omega)
    have hfront : (xs.take first ++ seq.reverse ++ [xs[limit]]).length = limit + 1 := by
      simp only [List.length_append, List.length_take, List.length_reverse, hseqLength,
        List.length_singleton]
      omega
    have harray : xs.take first ++ seq.reverse ++ xs.drop limit =
        xs.take first ++ seq.reverse ++ [xs[limit]] ++ xs.drop (limit + 1) := by
      rw [hx]; simp
    have hdrop : (xs.take first ++ seq.reverse ++ xs.drop limit).drop (limit + 1) =
        xs.drop (limit + 1) := by
      rw [harray, List.drop_append_of_le_length (by omega), ← hfront, List.drop_length,
        List.nil_append]
    have hmarks : marks (high (xs.take first ++ seq.reverse ++ xs.drop limit)) (limit + 1)
        count = marks (high xs) (limit + 1) count := by
      apply List.map_congr_left
      intro j hj
      have hj1 := (List.mem_range'_1.mp hj).1
      apply hlocal
      have h := congrArg (List.drop (j - (limit + 1))) hdrop
      rwa [List.drop_drop, List.drop_drop, Nat.add_sub_cancel' hj1] at h
    have hnext := marks_eq_replicate_append (Nat.le_succ limit) (show limit + 1 ≤ count by omega)
      (fun j h1 h2 => by
        obtain rfl : j = limit := by omega
        exact hl4 (by omega))
    have hlen' : count ≤ (xs.take first ++ seq.reverse ++ xs.drop limit).length := by
      simp only [List.length_append, List.length_take, List.length_reverse, hseqLength,
        List.length_drop]
      omega
    have htake : (xs.take first ++ seq.reverse ++ xs.drop limit).take (limit + 1) =
        xs.take first ++ seq.reverse ++ [xs[limit]] := by
      rw [harray, List.take_append_of_le_length (by omega), ← hfront, List.take_length]
    rw [if_neg hcount, ih _ _ hlen' (by omega) (by omega), hdrop, hmarks, htake, hnext, hx,
      Nat.succ_sub (le_refl limit), Nat.sub_self, List.replicate_one,
      List.singleton_append, reverseMarked_false]
    simp only [List.append_assoc, List.cons_append, List.nil_append]

theorem reverseMarked_append (ys : List α) : ∀ (marks : List Bool) (xs acc : List α),
    marks.length = xs.length →
      reverseMarked marks (xs ++ ys) acc = reverseMarked marks xs acc ++ ys
  | [], [], acc, _ => by simp
  | true :: marks, x :: xs, acc, h => by
    simp only [List.cons_append, reverseMarked_true]
    exact reverseMarked_append ys marks xs (x :: acc) (by simpa using h)
  | false :: marks, x :: xs, acc, h => by
    simp only [List.cons_append, reverseMarked_false, List.append_assoc]
    rw [reverseMarked_append ys marks xs [] (by simpa using h)]

theorem reverseMarked_append_unmarked (ys : List α) : ∀ (marks : List Bool) (xs acc : List α),
    marks.length = xs.length →
      reverseMarked (marks ++ List.replicate ys.length false) (xs ++ ys) acc =
        reverseMarked marks xs acc ++ ys
  | [], [], acc, _ => by
    cases ys with
    | nil => simp
    | cons y ys =>
      have := reverseMarked_unmarked [] [] ys
      simp only [List.append_nil, reverseMarked_noMarks] at this
      simp [List.replicate_succ, this]
  | true :: marks, x :: xs, acc, h => by
    simp only [List.cons_append, reverseMarked_true]
    exact reverseMarked_append_unmarked ys marks xs (x :: acc) (by simpa using h)
  | false :: marks, x :: xs, acc, h => by
    simp only [List.cons_append, reverseMarked_false, List.append_assoc]
    rw [reverseMarked_append_unmarked ys marks xs [] (by simpa using h)]

section Levels

variable (level : α → Nat) {m : Nat} {ys : List α}

/-- Reverse each maximal sequence of elements at `m` or higher. -/
def pass (m : Nat) (xs : List α) : List α :=
  reverseMarked (xs.map fun x => decide (m ≤ level x)) xs []

/-- The passes for the levels `lo + n`, ..., `lo + 1`, `lo`, in this order. -/
def passes (lo : Nat) : Nat → List α → List α
  | 0, xs => pass level lo xs
  | n + 1, xs => passes lo n (pass level (lo + n + 1) xs)

variable {level}

theorem pass_perm (m : Nat) (xs : List α) : (pass level m xs).Perm xs := by
  simpa [pass] using reverseMarked_perm (xs.map fun x => decide (m ≤ level x)) xs []

theorem passes_perm (lo : Nat) : ∀ (n : Nat) (xs : List α), (passes level lo n xs).Perm xs
  | 0, xs => pass_perm lo xs
  | n + 1, xs => (passes_perm lo n _).trans (pass_perm _ xs)

/-- Passes move elements by their levels only. -/
theorem pass_map {level' : β → Nat} (f : α → β) (m : Nat) (xs : List α)
    (hf : ∀ x ∈ xs, level' (f x) = level x) :
    pass level' m (xs.map f) = (pass level m xs).map f := by
  have hmarks : (xs.map f).map (fun y => decide (m ≤ level' y)) =
      xs.map fun x => decide (m ≤ level x) := by
    rw [List.map_map]
    apply List.map_congr_left
    intro x hx
    simp [hf x hx]
  rw [pass, hmarks, pass, reverseMarked_map, List.map_nil]

theorem passes_map {level' : β → Nat} (f : α → β) (lo : Nat) : ∀ (n : Nat) (xs : List α),
    (∀ x ∈ xs, level' (f x) = level x) → passes level' lo n (xs.map f) =
    (passes level lo n xs).map f
  | 0, xs, hf => pass_map f lo xs hf
  | n + 1, xs, hf => by
    have hf' : ∀ x ∈ pass level (lo + n + 1) xs, level' (f x) = level x :=
      fun x hx => hf x ((pass_perm _ xs).mem_iff.mp hx)
    rw [passes, pass_map f _ xs hf, passes_map f lo n _ hf', passes]

theorem reverseMarked_map_true {f : α → Bool} : ∀ (marks : List Bool) (xs acc : List α),
    (∀ x ∈ acc, f x = true) →
      List.Forall₂ (fun b x => b = true → f x = true) marks xs →
        (reverseMarked marks xs acc).map f = acc.map f ++ xs.map f
  | _, _, acc, hacc, .nil => by simp
  | true :: marks, x :: xs, acc, hacc, .cons hx h => by
    have hall : ∀ y ∈ x :: acc, f y = true := by
      intro y hy
      rcases List.mem_cons.mp hy with rfl | hy
      · exact hx rfl
      · exact hacc y hy
    have hcomm : acc.map f ++ [true] = true :: acc.map f := by
      rw [List.eq_replicate_iff.mpr ⟨List.length_map f, by simpa using hacc⟩,
        ← List.replicate_succ', List.replicate_succ]
    rw [reverseMarked_true, reverseMarked_map_true marks xs (x :: acc) hall h, List.map_cons,
      List.map_cons, hx rfl, ← hcomm]
    simp
  | false :: marks, x :: xs, acc, hacc, .cons hx h => by
    rw [reverseMarked_false, List.map_append, List.map_cons,
      reverseMarked_map_true marks xs [] (by simp) h]
    simp

/-- A pass does not change where the elements at a lower level or higher are. -/
theorem pass_marks {m m' : Nat} (h : m' ≤ m) (xs : List α) :
    ((pass level m xs).map fun x => decide (m' ≤ level x)) =
      xs.map fun x => decide (m' ≤ level x) := by
  have hmarks : List.Forall₂ (fun b x => b = true → decide (m' ≤ level x) = true)
      (xs.map fun x => decide (m ≤ level x)) xs := by
    rw [List.forall₂_map_left_iff, List.forall₂_same]
    intro x _ hx
    simp only [decide_eq_true_eq] at hx ⊢
    omega
  simpa [pass] using reverseMarked_map_true _ xs [] (by simp) hmarks

theorem reverseMarked_all : ∀ (xs acc : List α),
    reverseMarked (List.replicate xs.length true) xs acc = xs.reverse ++ acc
  | [], acc => by simp
  | x :: xs, acc => by simp [List.replicate_succ, reverseMarked_all xs]

theorem pass_eq_reverse (h : ∀ x ∈ xs, m ≤ level x) : pass level m xs = xs.reverse := by
  have hmarks : (xs.map fun x => decide (m ≤ level x)) = List.replicate xs.length true := by
    rw [List.eq_replicate_iff]
    refine ⟨by simp, ?_⟩
    simpa using h
  rw [pass, hmarks, reverseMarked_all, List.append_nil]

theorem pass_eq_self : ∀ {xs : List α},
    xs.IsChain (fun x y => level x < m ∨ level y < m) → pass level m xs = xs
  | [], _ => by simp [pass]
  | [x], _ => by by_cases hx : m ≤ level x <;> simp [pass, hx]
  | x :: y :: xs, h => by
    rw [List.isChain_cons_cons] at h
    have ih := pass_eq_self h.2
    rw [pass, List.map_cons]
    by_cases hx : m ≤ level x
    · have hy : ¬ m ≤ level y := by omega
      rw [pass, List.map_cons, decide_eq_false hy, reverseMarked_false] at ih
      rw [List.map_cons, decide_eq_true hx, decide_eq_false hy, reverseMarked_true,
        reverseMarked_false]
      simpa using ih
    · rw [decide_eq_false hx, reverseMarked_false, List.nil_append]
      exact congrArg (x :: ·) ih

theorem pass_append_low (h : ∀ y ∈ ys, level y < m) :
    pass level m (xs ++ ys) = pass level m xs ++ ys := by
  have hlow : (ys.map fun y => decide (m ≤ level y)) = List.replicate ys.length false := by
    rw [List.eq_replicate_iff]
    refine ⟨by simp, ?_⟩
    simpa using h
  rw [pass, List.map_append, hlow, reverseMarked_append_unmarked ys _ xs [] (by simp), pass]

theorem passes_append_low {lo : Nat} (h : ∀ y ∈ ys, level y < lo) :
    ∀ (n : Nat) (xs : List α), passes level lo n (xs ++ ys) = passes level lo n xs ++ ys
  | 0, xs => pass_append_low h
  | n + 1, xs => by
    have h' : ∀ y ∈ ys, level y < lo + n + 1 := fun y hy => by
      have := h y hy
      omega
    rw [passes, pass_append_low h', passes_append_low h n, passes]

theorem passes_succ (lo : Nat) : ∀ (n : Nat) (xs : List α),
    passes level lo (n + 1) xs = pass level lo (passes level (lo + 1) n xs)
  | 0, xs => rfl
  | n + 1, xs => by
    rw [passes, passes_succ lo n, passes, show lo + (n + 1) + 1 = lo + 1 + n + 1 by omega]

/-- The same passes over an array that does not hold the levels: they stay where they are. -/
def staticPasses (levels : List Nat) (lo : Nat) : Nat → List α → List α
  | 0, xs => reverseMarked (levels.map fun l => decide (lo ≤ l)) xs []
  | n + 1, xs =>
    staticPasses levels lo n (reverseMarked (levels.map fun l => decide (lo + n + 1 ≤ l)) xs [])

/-- Levels that move with their elements within a sequence are as good as levels that stay. -/
theorem staticPasses_eq {levels : List Nat} {lo : Nat} : ∀ {n : Nat} {xs : List (Nat × α)},
    (∀ m ≤ lo + n, (xs.map fun x => decide (m ≤ x.1)) = levels.map fun l => decide (m ≤ l)) →
      staticPasses levels lo n (xs.map Prod.snd) = (passes Prod.fst lo n xs).map Prod.snd
  | 0, xs, h => by
    rw [staticPasses, passes, pass, ← h lo (by omega), reverseMarked_map, List.map_nil]
  | n + 1, xs, h => by
    have hpass : reverseMarked (levels.map fun l => decide (lo + n + 1 ≤ l)) (xs.map Prod.snd) [] =
        (pass Prod.fst (lo + n + 1) xs).map Prod.snd := by
      rw [pass, ← h (lo + n + 1) (by omega), reverseMarked_map, List.map_nil]
    rw [staticPasses, hpass, passes]
    apply staticPasses_eq
    intro m hm
    rw [pass_marks (by omega), h m (by omega)]

end Levels

section Blocks

variable (level : β → Nat) {blocks : List β}

/-- The elements of the blocks, each at the level of its block. -/
def expand (content : β → List α) (blocks : List β) : List (Nat × α) :=
  blocks.flatMap fun b => (content b).map fun a => (level b, a)

/-- The content of a block after the passes for `lo`, ..., `lo + n`: each pass for its level
or a lower one reverses it. -/
def turn (lo n : Nat) (content : β → List α) (b : β) : List α :=
  if (min (level b) (lo + n) + 1 - lo) % 2 = 1 then (content b).reverse else content b

variable {level} {content : β → List α}

@[simp] theorem expand_nil : expand level content [] = [] := rfl

@[simp] theorem expand_cons (b : β) (blocks : List β) :
    expand level content (b :: blocks) =
      ((content b).map fun a => (level b, a)) ++ expand level content blocks := rfl

@[simp] theorem expand_append (xs ys : List β) :
    expand level content (xs ++ ys) = expand level content xs ++ expand level content ys := by
  simp [expand]

theorem expand_congr {content' : β → List α} (h : ∀ b ∈ blocks, content b = content' b) :
    expand level content blocks = expand level content' blocks := by
  apply List.flatMap_congr
  intro b hb
  rw [h b hb]

theorem map_marks_block (m : Nat) (b : β) (xs : List α) :
    (xs.map fun a => (level b, a)).map (fun x => decide (m ≤ x.1)) =
      List.replicate ((xs.map fun a => (level b, a)).length) (decide (m ≤ level b)) := by
  rw [List.map_map, List.length_map, List.eq_replicate_iff]
  refine ⟨by simp, ?_⟩
  intro c hc
  obtain ⟨a, _, rfl⟩ := List.mem_map.mp hc
  rfl

/-- A pass over the elements moves whole blocks, and reverses the ones that it moves. -/
theorem reverseMarked_expand (m : Nat) : ∀ (blocks acc : List β), (∀ b ∈ blocks, content b ≠ []) →
      reverseMarked ((expand level content blocks).map fun x => decide (m ≤ x.1))
          (expand level content blocks)
          (expand level (fun b => if m ≤ level b then (content b).reverse else content b) acc) =
        expand level (fun b => if m ≤ level b then (content b).reverse else content b)
          (reverseMarked (blocks.map fun b => decide (m ≤ level b)) blocks acc)
  | [], acc, _ => by simp
  | b :: blocks, acc, h => by
    have hrest := fun acc => reverseMarked_expand m blocks acc
      (fun c hc => h c (List.mem_cons_of_mem b hc))
    rw [expand_cons, List.map_append, map_marks_block, List.map_cons]
    by_cases hb : m ≤ level b
    · have hturn : ((content b).map fun a => (level b, a)).reverse ++
          expand level (fun b => if m ≤ level b then (content b).reverse else content b) acc =
            expand level (fun b => if m ≤ level b then (content b).reverse else content b)
              (b :: acc) := by
        rw [expand_cons, if_pos hb, List.map_reverse]
      rw [decide_eq_true hb, reverseMarked_marked, hturn, hrest, reverseMarked_true]
    obtain ⟨a, as, ha⟩ := List.exists_cons_of_ne_nil (h b List.mem_cons_self)
    have hunmarked := reverseMarked_unmarked
      ((expand level content blocks).map fun x => decide (m ≤ x.1))
      (expand level content blocks) (as.map fun a => (level b, a))
    rw [decide_eq_false hb, reverseMarked_false, ha, List.map_cons, List.length_cons,
      List.replicate_succ, List.cons_append, List.cons_append, reverseMarked_false, hunmarked]
    have hnil := hrest []
    rw [expand_nil] at hnil
    rw [hnil, expand_append, expand_cons, if_neg hb, ha]
    simp

theorem pass_expand (m : Nat) (h : ∀ b ∈ blocks, content b ≠ []) :
    pass Prod.fst m (expand level content blocks) =
      expand level (fun b => if m ≤ level b then (content b).reverse else content b)
        (pass level m blocks) := by
  have := @reverseMarked_expand _ _ level content m blocks [] h
  rwa [expand_nil] at this

/-- Reordering the elements is reordering the blocks, and turning each block as often as
there are passes for its level or a lower one. -/
theorem passes_expand (lo : Nat) : ∀ (n : Nat) {content : β → List α} {blocks : List β},
    (∀ b ∈ blocks, content b ≠ []) →
      passes Prod.fst lo n (expand level content blocks) =
        expand level (turn level lo n content) (passes level lo n blocks)
  | 0, content, blocks, h => by
    rw [passes, pass_expand lo h, passes]
    apply expand_congr
    intro b _
    by_cases hb : lo ≤ level b
    · rw [if_pos hb, turn, Nat.min_eq_right (by omega), if_pos (by omega)]
    · rw [if_neg hb, turn, Nat.min_eq_left (by omega), if_neg (by omega)]
  | n + 1, content, blocks, h => by
    have hne : ∀ b ∈ pass level (lo + n + 1) blocks,
        (if lo + n + 1 ≤ level b then (content b).reverse else content b) ≠ [] := by
      intro b hb
      have := h b ((pass_perm _ blocks).mem_iff.mp hb)
      split
      · simpa using this
      · exact this
    rw [passes, pass_expand _ h, passes_expand lo n hne, passes]
    apply expand_congr
    intro b _
    by_cases hb : lo + n + 1 ≤ level b
    · have h1 : min (level b) (lo + n) = lo + n := Nat.min_eq_right (by omega)
      have h2 : min (level b) (lo + (n + 1)) = lo + (n + 1) := Nat.min_eq_right (by omega)
      simp only [turn, if_pos hb, h1, h2]
      by_cases hpar : (lo + n + 1 - lo) % 2 = 1
      · rw [if_pos hpar, if_neg (by omega), List.reverse_reverse]
      · rw [if_neg hpar, if_pos (by omega)]
    · have h1 : min (level b) (lo + n) = min (level b) (lo + (n + 1)) := by omega
      simp only [turn, if_neg hb, h1]

end Blocks

end Icu.Lib.LevelReversal
