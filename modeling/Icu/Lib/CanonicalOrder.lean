import Mathlib.Data.List.Sort
import Mathlib.Data.List.DropRight
import Mathlib.Data.List.Chain

/-! # Canonical order

Elements with a positive key are marks, elements with the key 0 are starters. In canonical
order, every run of marks is sorted by key, and marks with the same key stay in their order.
Adding elements one by one keeps a list in canonical order if each mark is inserted behind the
last element with a key that is not larger.
-/

namespace Icu.Lib.CanonicalOrder

variable {α : Type} (key : α → Nat)

/-- The marks of a run, and what follows it. -/
def orderRuns : List α → List α → List α
  | run, [] => run.insertionSort fun x y => key x ≤ key y
  | run, x :: xs =>
    if key x = 0 then (run.insertionSort fun x y => key x ≤ key y) ++ x :: orderRuns [] xs
    else orderRuns (run ++ [x]) xs

/-- Every maximal run of marks, stably sorted. -/
def canonicalOrder (xs : List α) : List α := orderRuns key [] xs

/-- A starter goes to the end, a mark behind the last element with a key that is not larger. -/
def insertMark (x : α) (xs : List α) : List α :=
  if key x = 0 then xs ++ [x]
  else xs.rdropWhile (fun y => decide (key x < key y)) ++
    x :: xs.rtakeWhile (fun y => decide (key x < key y))

def Follows (x y : α) : Prop := key y = 0 ∨ key x ≤ key y

def IsOrdered (xs : List α) : Prop := xs.IsChain (Follows key)

variable {key} {x y : α} {xs ys zs : List α}

/-! ## Inserting one element -/

theorem insertMark_starter (h : key x = 0) : insertMark key x xs = xs ++ [x] := if_pos h

theorem insertMark_split (hx : key x ≠ 0) (hxs : ∀ y, xs.getLast? = some y → key y ≤ key x)
    (hys : ∀ y ∈ ys, key x < key y) : insertMark key x (xs ++ ys) = xs ++ x :: ys := by
  have hpos : ∀ y ∈ ys, decide (key x < key y) = true := fun y hy => decide_eq_true (hys y hy)
  have hdrop : xs.rdropWhile (fun y => decide (key x < key y)) = xs ∧
      xs.rtakeWhile (fun y => decide (key x < key y)) = [] := by
    induction xs using List.reverseRecOn with
    | nil => exact ⟨rfl, rfl⟩
    | append_singleton xs z _ =>
      have hz : ¬ decide (key x < key z) = true := by
        have := hxs z (by simp)
        rw [decide_eq_true_eq]
        omega
      exact ⟨List.rdropWhile_concat_neg _ _ _ hz, List.rtakeWhile_concat_neg _ _ _ hz⟩
  have hsplit : ∀ zs : List α, (∀ y ∈ zs, decide (key x < key y) = true) →
      (xs ++ zs).rdropWhile (fun y => decide (key x < key y)) = xs ∧
        (xs ++ zs).rtakeWhile (fun y => decide (key x < key y)) = zs := by
    intro zs
    induction zs using List.reverseRecOn with
    | nil =>
      intro _
      rw [List.append_nil]
      exact hdrop
    | append_singleton zs z ih =>
      intro hzs
      obtain ⟨h1, h2⟩ := ih fun y hy => hzs y (List.mem_append_left _ hy)
      have hz := hzs z (by simp)
      rw [← List.append_assoc, List.rdropWhile_concat_pos (fun y => decide (key x < key y)) _ z hz,
        List.rtakeWhile_concat_pos (fun y => decide (key x < key y)) _ z hz, h1, h2]
      exact ⟨rfl, rfl⟩
  obtain ⟨h1, h2⟩ := hsplit ys hpos
  rw [insertMark, if_neg hx, h1, h2]

theorem exists_split (n : Nat) (xs : List α) : ∃ as bs, xs = as ++ bs ∧
    (∀ y, as.getLast? = some y → key y ≤ n) ∧ ∀ y ∈ bs, n < key y := by
  refine ⟨xs.rdropWhile (fun y => decide (n < key y)),
    xs.rtakeWhile (fun y => decide (n < key y)), List.rdropWhile_append_rtakeWhile.symm, ?_, ?_⟩
  · intro y hy
    by_contra hlt
    have hne : xs.rdropWhile (fun y => decide (n < key y)) ≠ [] := by
      intro hnil
      rw [hnil] at hy
      simp at hy
    have hlast := List.rdropWhile_last_not (fun y => decide (n < key y)) xs hne
    rw [List.getLast?_eq_some_getLast hne, Option.some.injEq] at hy
    rw [hy] at hlast
    exact hlast (decide_eq_true (by omega))
  · intro y hy
    have hlt := List.mem_rtakeWhile_imp hy
    exact of_decide_eq_true hlt

theorem insertMark_append (h : ∀ y, xs.getLast? = some y → Follows key y x) :
    insertMark key x xs = xs ++ [x] := by
  by_cases hx : key x = 0
  · exact insertMark_starter hx
  have hnil : ∀ y ∈ ([] : List α), key x < key y := by simp
  have := insertMark_split hx (fun y hy => (h y hy).resolve_left hx) hnil
  rwa [List.append_nil] at this

theorem insertMark_after (hy : key y ≤ 1) :
    insertMark key x (xs ++ y :: ys) = xs ++ y :: insertMark key x ys := by
  by_cases hx : key x = 0
  · rw [insertMark_starter hx, insertMark_starter hx, List.append_assoc, List.cons_append]
  obtain ⟨as, bs, rfl, has, hbs⟩ := @exists_split _ key (key x) ys
  rw [insertMark_split hx has hbs, show xs ++ y :: (as ++ bs) = (xs ++ y :: as) ++ bs by simp,
    insertMark_split hx ?_ hbs]
  · simp
  intro z hz
  rw [List.getLast?_append, List.getLast?_cons] at hz
  simp only [Option.some_or, Option.some.injEq] at hz
  cases hlast : as.getLast? with
  | none =>
    rw [hlast, Option.getD_none] at hz
    rw [← hz]
    omega
  | some w =>
    rw [hlast, Option.getD_some] at hz
    exact hz ▸ has w hlast

theorem orderedInsert_comm (a c : α) : ∀ xs : List α,
    (xs.takeWhile (fun y => decide (key y ≤ key c)) ++
        c :: xs.dropWhile (fun y => decide (key y ≤ key c))).orderedInsert
          (fun x y => key x ≤ key y) a =
      (xs.orderedInsert (fun x y => key x ≤ key y) a).takeWhile (fun y => decide (key y ≤ key c)) ++
        c :: (xs.orderedInsert (fun x y => key x ≤ key y) a).dropWhile
          (fun y => decide (key y ≤ key c))
  | [] => by
    by_cases hac : key a ≤ key c
    · simp [List.orderedInsert, hac]
    · simp [List.orderedInsert, hac]
  | b :: xs => by
    have ih := orderedInsert_comm a c xs
    by_cases hbc : key b ≤ key c
    · by_cases hab : key a ≤ key b
      · have hac : key a ≤ key c := by omega
        simp [List.orderedInsert, hbc, hab, hac]
      simp only [List.orderedInsert, List.takeWhile_cons, List.dropWhile_cons, hbc, hab,
        decide_true, if_true, List.cons_append, if_false]
      rw [ih]
    · by_cases hab : key a ≤ key b
      · by_cases hac : key a ≤ key c
        · simp [List.orderedInsert, hbc, hab, hac]
        · simp [List.orderedInsert, hbc, hab, hac]
      · have hac : ¬ key a ≤ key c := by omega
        simp [List.orderedInsert, hbc, hab, hac]

theorem insertionSort_concat (c : α) : ∀ xs : List α,
    (xs ++ [c]).insertionSort (fun x y => key x ≤ key y) =
      (xs.insertionSort fun x y => key x ≤ key y).takeWhile (fun y => decide (key y ≤ key c)) ++
        c :: (xs.insertionSort fun x y => key x ≤ key y).dropWhile
          (fun y => decide (key y ≤ key c))
  | [] => rfl
  | a :: xs => by
    rw [List.cons_append, List.insertionSort_cons, insertionSort_concat c xs,
      orderedInsert_comm a c, List.insertionSort_cons]

theorem insertionSort_mark (hx : key x ≠ 0) : (xs ++ [x]).insertionSort (fun x y => key x ≤ key y) =
      insertMark key x (xs.insertionSort fun x y => key x ≤ key y) := by
  rw [insertionSort_concat]
  generalize hsorted : xs.insertionSort (fun x y => key x ≤ key y) = sorted
  have hpair : sorted.Pairwise fun x y => key x ≤ key y := by
    rw [← hsorted]
    exact List.pairwise_insertionSort (fun x y => key x ≤ key y) xs
  have hlow : ∀ y, (sorted.takeWhile fun y => decide (key y ≤ key x)).getLast? = some y →
      key y ≤ key x := by
    intro y hy
    have hle := List.mem_takeWhile_imp (List.mem_of_getLast? hy)
    exact of_decide_eq_true hle
  have hhigh : ∀ y ∈ sorted.dropWhile fun y => decide (key y ≤ key x), key x < key y := by
    clear hlow hsorted
    induction sorted with
    | nil => simp
    | cons z sorted ih =>
      obtain ⟨hz, hrest⟩ := List.pairwise_cons.mp hpair
      intro y hy
      rw [List.dropWhile_cons] at hy
      by_cases hzx : key z ≤ key x
      · rw [if_pos (decide_eq_true hzx)] at hy
        exact ih hrest y hy
      rw [if_neg (by simpa using hzx)] at hy
      rcases List.mem_cons.mp hy with rfl | hy
      · omega
      have := hz y hy
      omega
  rw [← insertMark_split hx hlow hhigh, List.takeWhile_append_dropWhile]

theorem orderRuns_concat (x : α) : ∀ (xs run : List α),
    orderRuns key run (xs ++ [x]) = insertMark key x (orderRuns key run xs)
  | [], run => by
    rw [List.nil_append, orderRuns, orderRuns]
    by_cases hx : key x = 0
    · rw [if_pos hx, insertMark_starter hx]
      rfl
    · rw [if_neg hx, orderRuns, insertionSort_mark hx]
  | y :: xs, run => by
    rw [List.cons_append, orderRuns, orderRuns]
    by_cases hy : key y = 0
    · rw [if_pos hy, if_pos hy, insertMark_after (by omega), orderRuns_concat x xs []]
    · rw [if_neg hy, if_neg hy, orderRuns_concat x xs]

theorem canonicalOrder_concat (xs : List α) (x : α) :
    canonicalOrder key (xs ++ [x]) = insertMark key x (canonicalOrder key xs) :=
  orderRuns_concat x xs []

@[simp] theorem canonicalOrder_nil : canonicalOrder key [] = [] := rfl

theorem canonicalOrder_append (xs : List α) : ∀ ys : List α, canonicalOrder key (xs ++ ys) =
      ys.foldl (fun acc x => insertMark key x acc) (canonicalOrder key xs) := by
  intro ys
  induction ys using List.reverseRecOn with
  | nil => rw [List.append_nil, List.foldl_nil]
  | append_singleton ys y ih =>
    rw [← List.append_assoc, canonicalOrder_concat, ih, List.foldl_append]
    rfl

theorem canonicalOrder_eq_foldl (xs : List α) :
    canonicalOrder key xs = xs.foldl (fun acc x => insertMark key x acc) [] :=
  canonicalOrder_append [] xs

theorem perm_insertMark (x : α) (xs : List α) : (insertMark key x xs).Perm (x :: xs) := by
  by_cases hx : key x = 0
  · rw [insertMark_starter hx]
    exact List.perm_append_singleton x xs
  obtain ⟨as, bs, rfl, has, hbs⟩ := @exists_split _ key (key x) xs
  rw [insertMark_split hx has hbs]
  exact List.perm_middle

theorem perm_canonicalOrder (xs : List α) : (canonicalOrder key xs).Perm xs := by
  induction xs using List.reverseRecOn with
  | nil => exact List.Perm.refl _
  | append_singleton xs x ih =>
    rw [canonicalOrder_concat]
    exact ((perm_insertMark x _).trans (ih.cons x)).trans (List.perm_append_singleton x xs).symm

/-- What follows an element with a key that is at most 1 does not change what is before it. -/
theorem foldl_insertMark_after (hx : key x ≤ 1) (xs : List α) : ∀ ys : List α,
    ys.foldl (fun acc x => insertMark key x acc) (xs ++ [x]) =
      xs ++ x :: canonicalOrder key ys := by
  intro ys
  induction ys using List.reverseRecOn with
  | nil => rfl
  | append_singleton ys y ih =>
    rw [List.foldl_append, ih, List.foldl_cons, List.foldl_nil, insertMark_after hx,
      canonicalOrder_concat]

theorem isOrdered_insertMark (h : IsOrdered key xs) : IsOrdered key (insertMark key x xs) := by
  by_cases hx : key x = 0
  · rw [insertMark_starter hx]
    exact List.isChain_append.mpr ⟨h, List.isChain_singleton x, fun a _ b hb => by
      obtain rfl : x = b := by simpa using hb
      exact .inl hx⟩
  obtain ⟨as, bs, rfl, has, hbs⟩ := @exists_split _ key (key x) xs
  rw [insertMark_split hx has hbs]
  obtain ⟨h1, h2, -⟩ := List.isChain_append.mp h
  refine List.isChain_append.mpr ⟨h1, ?_, fun a ha b hb => ?_⟩
  · rw [List.isChain_cons]
    exact ⟨fun b hb => .inr (Nat.le_of_lt (hbs b (List.mem_of_head? hb))), h2⟩
  · obtain rfl : x = b := by simpa using hb
    exact .inr (has a ha)

theorem isOrdered_canonicalOrder (xs : List α) : IsOrdered key (canonicalOrder key xs) := by
  induction xs using List.reverseRecOn with
  | nil => exact List.isChain_nil
  | append_singleton xs x ih =>
    rw [canonicalOrder_concat]
    exact isOrdered_insertMark ih

theorem foldl_insertMark_isOrdered : ∀ {ys xs : List α}, IsOrdered key ys →
    (∀ x y, xs.getLast? = some x → ys.head? = some y → Follows key x y) →
    ys.foldl (fun acc x => insertMark key x acc) xs = xs ++ ys
  | [], _, _, _ => by simp
  | y :: ys, xs, h, hxy => by
    obtain ⟨hhead, htail⟩ := List.isChain_cons.mp h
    rw [List.foldl_cons, insertMark_append fun x hx => hxy x y hx rfl,
      foldl_insertMark_isOrdered htail fun x z hx hz => ?_, List.append_assoc]
    · rfl
    obtain rfl : y = x := by simpa using hx
    exact hhead z hz

theorem canonicalOrder_eq_self (h : IsOrdered key xs) : canonicalOrder key xs = xs := by
  rw [canonicalOrder_eq_foldl, foldl_insertMark_isOrdered h (by simp), List.nil_append]

/-- An ordered list that ends with a key that is at most 1 stays before everything else. -/
theorem canonicalOrder_boundary (h : IsOrdered key xs)
    (hlast : ∀ x, xs.getLast? = some x → key x ≤ 1) (ys : List α) :
    canonicalOrder key (xs ++ ys) = xs ++ canonicalOrder key ys := by
  rw [canonicalOrder_append, canonicalOrder_eq_self h]
  rcases List.eq_nil_or_concat xs with rfl | ⟨xs', x, rfl⟩
  · rw [List.nil_append, canonicalOrder_eq_foldl]
  rw [List.concat_eq_append] at hlast ⊢
  rw [foldl_insertMark_after (hlast x (by simp)), List.append_assoc]
  rfl

theorem isChain_canonicalOrder {R : α → α → Prop} (hR : ∀ x y, ¬ (key x = 0 ∧ key y = 0) → R x y)
    (h : xs.IsChain R) : (canonicalOrder key xs).IsChain R ∧
      ∀ x, (canonicalOrder key xs).getLast? = some x → key x = 0 → xs.getLast? = some x := by
  induction xs using List.reverseRecOn with
  | nil => exact ⟨List.isChain_nil, by simp⟩
  | append_singleton xs y ih =>
    obtain ⟨h1, -, h2⟩ := List.isChain_append.mp h
    obtain ⟨ih1, ih2⟩ := ih h1
    rw [canonicalOrder_concat]
    by_cases hy : key y = 0
    · rw [insertMark_starter hy]
      refine ⟨List.isChain_append.mpr ⟨ih1, List.isChain_singleton y, fun a ha b hb => ?_⟩, ?_⟩
      · obtain rfl : y = b := by simpa using hb
        by_cases hkey : key a = 0
        · exact h2 a (ih2 a ha hkey) y (by simp)
        · exact hR a y fun hcon => hkey hcon.1
      · simp
    obtain ⟨as, bs, heq, has, hbs⟩ := @exists_split _ key (key y) (canonicalOrder key xs)
    rw [heq] at ih1 ⊢
    rw [insertMark_split hy has hbs]
    obtain ⟨h3, h4, -⟩ := List.isChain_append.mp ih1
    refine ⟨List.isChain_append.mpr ⟨h3, ?_, fun a _ b hb => ?_⟩, fun x hx hkey => ?_⟩
    · rw [List.isChain_cons]
      exact ⟨fun b _ => hR y b fun hcon => hy hcon.1, h4⟩
    · obtain rfl : y = b := by simpa using hb
      exact hR a y fun hcon => hy hcon.2
    · rw [List.getLast?_append_of_ne_nil _ (List.cons_ne_nil y bs)] at hx
      rcases List.mem_cons.mp (List.mem_of_getLast? hx) with rfl | hmem
      · exact absurd hkey hy
      have := hbs x hmem
      omega

end Icu.Lib.CanonicalOrder
