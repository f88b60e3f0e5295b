import Mathlib.Data.List.Basic
import Mathlib.Data.List.Induction

/-! # Lists as sequences of insertions

A cursor `⟨n, i⟩` goes through all places of all values: through the places `i` of the list
for a value `n`, and then to the next value. A number says how far it goes, and there the
value is inserted. Values and places only increase, so that the last insertion can be told
from the list, and different numbers yield different lists.
-/

namespace Icu.Lib.InsertionCode

def insertAt (p x : Nat) (l : List Nat) : List Nat := l.take p ++ x :: l.drop p

section InsertAt

variable {p x y : Nat} {l l' : List Nat}

@[simp] theorem mem_insertAt : y ∈ insertAt p x l ↔ y = x ∨ y ∈ l := by
  rw [insertAt, List.mem_append, List.mem_cons, or_left_comm, ← List.mem_append,
    List.take_append_drop]

@[simp] theorem length_insertAt : (insertAt p x l).length = l.length + 1 := by
  rw [insertAt, List.length_append, List.length_cons, ← Nat.add_assoc, ← List.length_append,
    List.take_append_drop]

theorem drop_insertAt (hp : p ≤ l.length) : (insertAt p x l).drop (p + 1) = l.drop p := by
  have htake : (l.take p).length = p := by rw [List.length_take, Nat.min_eq_left hp]
  rw [insertAt, List.drop_append, List.drop_eq_nil_of_le (by omega), htake, Nat.add_sub_cancel_left]
  rfl

theorem getElem?_insertAt (hp : p ≤ l.length) : (insertAt p x l)[p]? = some x := by
  have htake : (l.take p).length = p := by rw [List.length_take, Nat.min_eq_left hp]
  rw [insertAt, List.getElem?_append_right (by omega), htake, Nat.sub_self]
  rfl

theorem insertAt_inj (hp : p ≤ l.length) (hp' : p ≤ l'.length)
    (h : insertAt p x l = insertAt p y l') : l = l' := by
  have hlen : (l.take p).length = (l'.take p).length := by
    rw [List.length_take, List.length_take, Nat.min_eq_left hp, Nat.min_eq_left hp']
  obtain ⟨htake, hdrop⟩ := List.append_inj h hlen
  rw [← List.take_append_drop p l, ← List.take_append_drop p l', htake,
    List.tail_eq_of_cons_eq hdrop]

theorem filter_insertAt {f : Nat → Bool} (hx : f x = false) :
    (insertAt p x l).filter f = l.filter f := by
  rw [insertAt, List.filter_append, List.filter_cons_of_neg (by rw [hx]; exact Bool.false_ne_true),
    ← List.filter_append, List.take_append_drop]

end InsertAt

structure Cursor where
  n : Nat
  i : Nat
  list : List Nat

namespace Cursor

def advance (s : Cursor) (delta : Nat) : Cursor :=
  let n := s.n + (s.i + delta) / (s.list.length + 1)
  let p := (s.i + delta) % (s.list.length + 1)
  ⟨n, p + 1, insertAt p n s.list⟩

def run (s : Cursor) (deltas : List Nat) : Cursor := deltas.foldl advance s

variable {s s' : Cursor} {d d' n p : Nat} {ds es : List Nat}

@[simp] theorem run_nil : s.run [] = s := rfl

@[simp] theorem run_cons : s.run (d :: ds) = (s.advance d).run ds := rfl

theorem run_append : s.run (ds ++ es) = (s.run ds).run es := List.foldl_append

theorem advance_eq (hn : s.n ≤ n) (hp : p ≤ s.list.length)
    (h : s.i + d = (n - s.n) * (s.list.length + 1) + p) :
    s.advance d = ⟨n, p + 1, insertAt p n s.list⟩ := by
  have hdiv : (s.i + d) / (s.list.length + 1) = n - s.n := by
    rw [h, Nat.add_comm, Nat.add_mul_div_right _ _ (Nat.succ_pos _), Nat.div_eq_of_lt (by omega),
      Nat.zero_add]
  have hmod : (s.i + d) % (s.list.length + 1) = p := by
    rw [h, Nat.add_comm, Nat.add_mul_mod_self_right, Nat.mod_eq_of_lt (by omega)]
  simp only [advance, hdiv, hmod, Nat.add_sub_cancel' hn]

theorem place_le (s : Cursor) (d : Nat) : (s.i + d) % (s.list.length + 1) ≤ s.list.length :=
  Nat.le_of_lt_succ (Nat.mod_lt _ (Nat.succ_pos _))

@[simp] theorem length_advance (s : Cursor) (d : Nat) :
    (s.advance d).list.length = s.list.length + 1 := length_insertAt

theorem length_run (s : Cursor) (ds : List Nat) :
    (s.run ds).list.length = s.list.length + ds.length := by
  induction ds generalizing s with
  | nil => rfl
  | cons d ds ih =>
    rw [run_cons, ih, length_advance, List.length_cons]
    omega

theorem mem_run {x : Nat} (h : x ∈ s.list) : x ∈ (s.run ds).list := by
  induction ds generalizing s with
  | nil => exact h
  | cons d ds ih => exact ih (mem_insertAt.mpr (Or.inr h))

theorem filter_run {bound : Nat} (h : bound ≤ s.n) (ds : List Nat) :
    (s.run ds).list.filter (· < bound) = s.list.filter (· < bound) := by
  induction ds generalizing s with
  | nil => rfl
  | cons d ds ih =>
    have hn : bound ≤ (s.advance d).n := Nat.le_trans h (Nat.le_add_right _ _)
    rw [run_cons, ih hn]
    exact filter_insertAt (decide_eq_false (Nat.not_lt.mpr hn))

theorem n_mem_advance (s : Cursor) (d : Nat) : (s.advance d).n ∈ (s.advance d).list :=
  mem_insertAt.mpr (Or.inl rfl)

structure Sound (s : Cursor) : Prop where
  place : s.i ≤ s.list.length
  le : ∀ x ∈ s.list, x ≤ s.n
  lt : ∀ x ∈ s.list.drop s.i, x < s.n

theorem Sound.advance (h : s.Sound) (d : Nat) : (s.advance d).Sound := by
  have hp := s.place_le d
  have hn : (s.advance d).n = s.n + (s.i + d) / (s.list.length + 1) := rfl
  refine ⟨?_, fun x hx => ?_, fun x hx => ?_⟩
  · rw [length_advance]
    exact Nat.succ_le_succ hp
  · rcases mem_insertAt.mp hx with rfl | hx
    · exact Nat.le_refl _
    · exact Nat.le_trans (h.le x hx) (Nat.le_add_right _ _)
  · -- Behind the new place there is what was at or behind it before.
    have hdrop : (s.advance d).list.drop (s.advance d).i =
        s.list.drop ((s.i + d) % (s.list.length + 1)) := drop_insertAt hp
    rw [hdrop] at hx
    rw [hn]
    by_cases hzero : (s.i + d) / (s.list.length + 1) = 0
    · have hlt : s.i + d < s.list.length + 1 := (Nat.div_eq_zero_iff_lt (Nat.succ_pos _)).mp hzero
      rw [Nat.mod_eq_of_lt hlt] at hx
      have := h.lt x (List.drop_subset_drop_left _ (Nat.le_add_right _ _) hx)
      exact Nat.lt_of_lt_of_le this (Nat.le_add_right _ _)
    · have := h.le x (List.mem_of_mem_drop hx)
      generalize (s.i + d) / (s.list.length + 1) = q at *
      omega

theorem Sound.advance_inj (h : s.Sound) (h' : s'.Sound)
    (hlist : (s.advance d).list = (s'.advance d').list) :
    s.list = s'.list ∧ (s.advance d).n = (s'.advance d').n ∧ (s.advance d).i =
    (s'.advance d').i := by
  have hp := s.place_le d
  have hp' := s'.place_le d'
  have hs := h.advance d
  have hs' := h'.advance d'
  have hmem := s.n_mem_advance d
  have hmem' := s'.n_mem_advance d'
  -- Both values are the largest one.
  have hn : (s.advance d).n = (s'.advance d').n :=
    Nat.le_antisymm (hs'.le _ (hlist ▸ hmem)) (hs.le _ (hlist ▸ hmem'))
  -- Both places are the last ones with this value.
  have last : ∀ {s s' : Cursor} {d d' : Nat}, (s.advance d).Sound →
      (s.advance d).list = (s'.advance d').list → (s.advance d).n = (s'.advance d').n →
      (s'.advance d').i ≤ (s.advance d).i := by
    intro s s' d d' hs hlist hn
    by_contra hlt
    have hget : (s'.advance d').list[(s'.i + d') % (s'.list.length + 1)]? =
      some (s'.advance d').n :=
      getElem?_insertAt (s'.place_le d')
    rw [← hlist] at hget
    have hi : (s'.advance d').i = (s'.i + d') % (s'.list.length + 1) + 1 := rfl
    have hdrop : (s'.advance d').n ∈ (s.advance d).list.drop (s.advance d).i := by
      refine List.mem_of_getElem? (i := (s'.i + d') % (s'.list.length + 1) - (s.advance d).i) ?_
      rw [List.getElem?_drop, Nat.add_sub_cancel' (by omega)]
      exact hget
    exact Nat.lt_irrefl _ (hn ▸ hs.lt _ hdrop)
  have hi : (s.advance d).i = (s'.advance d').i :=
    Nat.le_antisymm (last hs' hlist.symm hn.symm) (last hs hlist hn)
  refine ⟨?_, hn, hi⟩
  have hplace : (s.i + d) % (s.list.length + 1) = (s'.i + d') % (s'.list.length + 1) :=
    Nat.succ.inj hi
  have heq : insertAt ((s.i + d) % (s.list.length + 1)) (s.advance d).n s.list =
      insertAt ((s'.i + d') % (s'.list.length + 1)) (s'.advance d').n s'.list := hlist
  rw [hplace] at heq hp
  exact insertAt_inj hp hp' heq

theorem Sound.run (h : s.Sound) (ds : List Nat) : (s.run ds).Sound := by
  induction ds generalizing s with
  | nil => exact h
  | cons d ds ih => exact ih (h.advance d)

theorem Sound.run_inj (h : s.Sound) : ∀ {ds es : List Nat},
    (s.run ds).list = (s.run es).list → ds = es := by
  intro ds
  induction ds using List.reverseRecOn with
  | nil =>
    intro es hlist
    have hlen := congrArg List.length hlist
    rw [length_run, length_run, List.length_nil] at hlen
    exact (List.eq_nil_of_length_eq_zero (by omega)).symm
  | append_singleton ds d ih =>
    intro es hlist
    have hlen := congrArg List.length hlist
    rw [length_run, length_run, List.length_append, List.length_singleton] at hlen
    rcases List.eq_nil_or_concat es with rfl | ⟨es, e, rfl⟩
    · rw [List.length_nil] at hlen
      omega
    rw [List.concat_eq_append] at hlist ⊢
    rw [run_append, run_append] at hlist
    obtain ⟨hprev, hn, hi⟩ := (h.run ds).advance_inj (h.run es) hlist
    have hds := ih hprev
    subst hds
    have htotal : (s.run ds).i + d = (s.run ds).i + e := by
      rw [← Nat.div_add_mod ((s.run ds).i + d) ((s.run ds).list.length + 1),
        ← Nat.div_add_mod ((s.run ds).i + e) ((s.run ds).list.length + 1),
        Nat.add_left_cancel hn, Nat.succ.inj hi]
    rw [Nat.add_left_cancel htotal]

end Cursor

end Icu.Lib.InsertionCode
