import Icu.Lib.LocalLanguage
import Icu.Rbbi.Model

/-! # Positions

The calculated sets of positions describe the language of a tree, except that a repetition with
`opPlus` is not nullable.
-/

namespace Icu.Rbbi

open Icu.Lib Computability

variable {p : Leaf}

structure IsSet (L l : List Leaf) : Prop where
  sorted : l.Pairwise fun p q => p.address < q.address
  subset : ∀ p ∈ l, p ∈ L

theorem IsSet.nil {L : List Leaf} : IsSet L [] := ⟨.nil, by simp⟩

theorem IsSet.singleton {L : List Leaf} (h : p ∈ L) : IsSet L [p] :=
  ⟨List.pairwise_singleton _ _, by simpa using h⟩

@[simp] theorem setAdd_nil (source : List Leaf) : setAdd [] source = source := rfl

section

variable {L : List Leaf} (hL : (L.map Leaf.address).Nodup) {source dest : List Leaf}

include hL

theorem eq_of_address {q : Leaf} (hp : p ∈ L) (hq : q ∈ L) (h : p.address = q.address) :
    p = q := List.inj_on_of_nodup_map hL hp hq h

theorem mem_setAdd {dest source : List Leaf} (hd : ∀ p ∈ dest, p ∈ L) (hs : ∀ p ∈ source, p ∈ L)
    {q : Leaf} : q ∈ setAdd dest source ↔ q ∈ dest ∨ q ∈ source := by
  induction dest generalizing source with
  | nil => simp [setAdd]
  | cons d dest ihd =>
    rw [List.forall_mem_cons] at hd
    rw [setAdd]
    induction source with
    | nil => simp [setAddHead]
    | cons s source ihs =>
      have hs' := List.forall_mem_cons.mp hs
      rw [setAddHead]
      split
      · next heq =>
        rw [eq_of_address hL hd.1 hs'.1 heq, List.mem_cons, ihd hd.2 hs'.2, List.mem_cons,
          List.mem_cons]
        tauto
      · split
        · rw [List.mem_cons, ihd hd.2 hs, List.mem_cons (a := q) (b := d), or_assoc]
        rw [List.mem_cons, ihs hs'.2, List.mem_cons, List.mem_cons]
        tauto

theorem sorted_setAdd (hd : IsSet L dest) (hs : IsSet L source) :
    (setAdd dest source).Pairwise fun p q => p.address < q.address := by
  induction dest generalizing source with
  | nil => exact hs.sorted
  | cons d dest ihd =>
    obtain ⟨hd1, hd2⟩ := List.pairwise_cons.mp hd.sorted
    have hdest : IsSet L dest := ⟨hd2, fun p hp => hd.subset p (List.mem_cons_of_mem d hp)⟩
    rw [setAdd]
    induction source with
    | nil => exact hd.sorted
    | cons s source ihs =>
      obtain ⟨hs1, hs2⟩ := List.pairwise_cons.mp hs.sorted
      have hsource : IsSet L source :=
        ⟨hs2, fun p hp => hs.subset p (List.mem_cons_of_mem s hp)⟩
      rw [setAddHead]
      split
      · next heq =>
        refine List.pairwise_cons.mpr ⟨fun q hq => ?_, ihd hdest hsource⟩
        rcases (mem_setAdd hL hdest.subset hsource.subset).mp hq with hq | hq
        · rw [← heq]
          exact hd1 q hq
        · exact hs1 q hq
      split
      · next hlt =>
        refine List.pairwise_cons.mpr ⟨fun q hq => ?_, ihd hdest hs⟩
        rcases (mem_setAdd hL hdest.subset hs.subset).mp hq with hq | hq
        · exact hd1 q hq
        rcases List.mem_cons.mp hq with rfl | hq
        · exact hlt
        · exact Nat.lt_trans hlt (hs1 q hq)
      · next hne hge =>
        have hlt : s.address < d.address := by omega
        have hmem : ∀ q, q ∈ setAddHead d dest (setAdd dest) source ↔
            q ∈ d :: dest ∨ q ∈ source := fun q =>
          @mem_setAdd L hL (d :: dest) source hd.subset hsource.subset q
        refine List.pairwise_cons.mpr ⟨fun q hq => ?_, ihs hsource⟩
        rcases (hmem q).mp hq with hq | hq
        · rcases List.mem_cons.mp hq with rfl | hq
          · exact hlt
          · exact Nat.lt_trans hlt (hd1 q hq)
        · exact hs1 q hq

theorem IsSet.setAdd (hd : IsSet L dest) (hs : IsSet L source) : IsSet L (setAdd dest source) := by
  refine ⟨sorted_setAdd hL hd hs, fun p hp => ?_⟩
  rcases (mem_setAdd hL hd.subset hs.subset).mp hp with hp | hp
  · exact hd.subset p hp
  · exact hs.subset p hp

theorem setEquals_iff {a b : List Leaf} (ha : ∀ p ∈ a, p ∈ L) (hb : ∀ p ∈ b, p ∈ L) :
    setEquals a b = true ↔ a = b := by
  rw [setEquals, beq_iff_eq]
  refine ⟨fun h => ?_, fun h => by rw [h]⟩
  induction a generalizing b with
  | nil =>
    cases b with
    | nil => rfl
    | cons q b => simp at h
  | cons p a ih =>
    cases b with
    | nil => simp at h
    | cons q b =>
      rw [List.forall_mem_cons] at ha hb
      rw [List.map_cons, List.map_cons, List.cons.injEq] at h
      rw [eq_of_address hL ha.1 hb.1 h.1, ih ha.2 hb.2 h.2]

theorem isSet_add {followPos : FollowPos} (hf : ∀ i, IsSet L (followPos i))
    (hs : IsSet L source) (p : Leaf) (i : Nat) : IsSet L (followPos.add source p i) := by
  rw [FollowPos.add]
  split
  · exact (hf i).setAdd hL hs
  · exact hf i

theorem isSet_addFollow {firstPos : List Leaf} (hfirst : IsSet L firstPos) :
    ∀ {lastPos : List Leaf} {followPos : FollowPos}, (∀ i, IsSet L (followPos i)) →
    ∀ i, IsSet L (RBBINode.addFollow lastPos firstPos followPos i)
  | [], _, hf => hf
  | p :: lastPos, followPos, hf =>
    @isSet_addFollow firstPos hfirst lastPos (followPos.add firstPos p) (isSet_add hL hf hfirst p)

theorem mem_addFollow {firstPos : List Leaf} (hfirst : IsSet L firstPos) {p q : Leaf} (hp : p ∈ L) :
    ∀ {lastPos : List Leaf} {followPos : FollowPos}, (∀ p ∈ lastPos, p ∈ L) →
    (∀ i, IsSet L (followPos i)) → (q ∈ RBBINode.addFollow lastPos firstPos followPos p.address ↔
      q ∈ followPos p.address ∨ p ∈ lastPos ∧ q ∈ firstPos)
  | [], followPos, _, _ => by simp [RBBINode.addFollow]
  | r :: lastPos, followPos, hlast, hf => by
    rw [List.forall_mem_cons] at hlast
    have hrest := @mem_addFollow firstPos hfirst p q hp lastPos (followPos.add firstPos r) hlast.2
      (isSet_add hL hf hfirst r)
    have hone : q ∈ followPos.add firstPos r p.address ↔
        q ∈ followPos p.address ∨ p = r ∧ q ∈ firstPos := by
      rw [FollowPos.add]
      split
      · next heq =>
        rw [mem_setAdd hL (hf _).subset hfirst.subset]
        simp [eq_of_address hL hp hlast.1 heq]
      · next hne =>
        have hne' : ¬ p = r := fun h => hne (by rw [h])
        simp [hne']
    refine hrest.trans ?_
    rw [hone, List.mem_cons]
    tauto

end

/-! ## The description of a tree -/

namespace RBBINode

/-- The positions of a tree. A repetition with `opPlus` is taken not to be empty. -/
def spec : RBBINode → LocalSpec Leaf
  | leaf p => .letter p
  | opOr l r => l.spec.union r.spec
  | opCat l r => l.spec.concat r.spec
  | opStar l => l.spec.closure True
  | opPlus l => l.spec.closure False
  | opQuestion l => l.spec.optional

def IsPlain (n : RBBINode) : Prop := ∀ p ∈ n.leaves, p.fType = .leafChar ∨ p.fType = .endMark

theorem calcNullable_iff : ∀ {n : RBBINode}, n.IsPlain → (n.calcNullable = true ↔ n.spec.nullable)
  | leaf p, h => by
    rcases h p List.mem_cons_self with hp | hp <;> simp [calcNullable, spec, LocalSpec.letter, hp]
  | opOr l r, h => by
    rw [IsPlain, leaves, List.forall_mem_append] at h
    rw [calcNullable, Bool.or_eq_true, calcNullable_iff h.1, calcNullable_iff h.2]
    rfl
  | opCat l r, h => by
    rw [IsPlain, leaves, List.forall_mem_append] at h
    rw [calcNullable, Bool.and_eq_true, calcNullable_iff h.1, calcNullable_iff h.2]
    rfl
  | opStar l, _ => by simp [calcNullable, spec, LocalSpec.closure]
  | opPlus l, _ => by simp [calcNullable, spec, LocalSpec.closure]
  | opQuestion l, _ => by simp [calcNullable, spec, LocalSpec.optional]

section

variable {L : List Leaf} (hL : (L.map Leaf.address).Nodup)

include hL

theorem calcFirstPos_spec : ∀ {n : RBBINode}, n.IsPlain → (∀ p ∈ n.leaves, p ∈ L) →
    IsSet L n.calcFirstPos ∧ ∀ p, p ∈ n.calcFirstPos ↔ p ∈ n.spec.first
  | leaf p, _, hsub => ⟨.singleton (hsub p List.mem_cons_self), fun q => by
    simp [calcFirstPos, spec, LocalSpec.letter]⟩
  | opOr l r, h, hsub => by
    rw [IsPlain, leaves, List.forall_mem_append] at h
    rw [leaves, List.forall_mem_append] at hsub
    obtain ⟨hl, hl'⟩ := calcFirstPos_spec h.1 hsub.1
    obtain ⟨hr, hr'⟩ := calcFirstPos_spec h.2 hsub.2
    refine ⟨hl.setAdd hL hr, fun p => ?_⟩
    rw [calcFirstPos, setAdd_nil, mem_setAdd hL hl.subset hr.subset]
    exact or_congr (hl' p) (hr' p)
  | opCat l r, h, hsub => by
    rw [IsPlain, leaves, List.forall_mem_append] at h
    rw [leaves, List.forall_mem_append] at hsub
    obtain ⟨hl, hl'⟩ := calcFirstPos_spec h.1 hsub.1
    obtain ⟨hr, hr'⟩ := calcFirstPos_spec h.2 hsub.2
    have hnull := calcNullable_iff h.1
    rw [calcFirstPos]
    split
    · next hn =>
      refine ⟨hl.setAdd hL hr, fun p => (mem_setAdd hL hl.subset hr.subset).trans ?_⟩
      exact or_congr (hl' p) ((hr' p).trans ⟨fun hp => ⟨hnull.mp hn, hp⟩, fun hp => hp.2⟩)
    · next hn =>
      refine ⟨hl, fun p => (hl' p).trans ⟨Or.inl, fun hp => hp.resolve_right fun hcon => ?_⟩⟩
      exact hn (hnull.mpr hcon.1)
  | opStar l, h, hsub => @calcFirstPos_spec l h hsub
  | opPlus l, h, hsub => @calcFirstPos_spec l h hsub
  | opQuestion l, h, hsub => @calcFirstPos_spec l h hsub

theorem calcLastPos_spec : ∀ {n : RBBINode}, n.IsPlain → (∀ p ∈ n.leaves, p ∈ L) →
    IsSet L n.calcLastPos ∧ ∀ p, p ∈ n.calcLastPos ↔ p ∈ n.spec.last
  | leaf p, _, hsub => ⟨.singleton (hsub p List.mem_cons_self), fun q => by
    simp [calcLastPos, spec, LocalSpec.letter]⟩
  | opOr l r, h, hsub => by
    rw [IsPlain, leaves, List.forall_mem_append] at h
    rw [leaves, List.forall_mem_append] at hsub
    obtain ⟨hl, hl'⟩ := calcLastPos_spec h.1 hsub.1
    obtain ⟨hr, hr'⟩ := calcLastPos_spec h.2 hsub.2
    refine ⟨hl.setAdd hL hr, fun p => ?_⟩
    rw [calcLastPos, setAdd_nil, mem_setAdd hL hl.subset hr.subset]
    exact or_congr (hl' p) (hr' p)
  | opCat l r, h, hsub => by
    rw [IsPlain, leaves, List.forall_mem_append] at h
    rw [leaves, List.forall_mem_append] at hsub
    obtain ⟨hl, hl'⟩ := calcLastPos_spec h.1 hsub.1
    obtain ⟨hr, hr'⟩ := calcLastPos_spec h.2 hsub.2
    have hnull := calcNullable_iff h.2
    rw [calcLastPos]
    split
    · next hn =>
      refine ⟨hr.setAdd hL hl, fun p => (mem_setAdd hL hr.subset hl.subset).trans ?_⟩
      exact or_congr (hr' p) ((hl' p).trans ⟨fun hp => ⟨hnull.mp hn, hp⟩, fun hp => hp.2⟩)
    · next hn =>
      refine ⟨hr, fun p => (hr' p).trans ⟨Or.inl, fun hp => hp.resolve_right fun hcon => ?_⟩⟩
      exact hn (hnull.mpr hcon.1)
  | opStar l, h, hsub => @calcLastPos_spec l h hsub
  | opPlus l, h, hsub => @calcLastPos_spec l h hsub
  | opQuestion l, h, hsub => @calcLastPos_spec l h hsub

theorem addFollow_spec {n : RBBINode} {before after : FollowPos} (h : n.IsPlain)
    (hsub : ∀ p ∈ n.leaves, p ∈ L) (hn : (∀ i, IsSet L (after i)) ∧ ∀ p ∈ L, ∀ q,
      q ∈ after p.address ↔ q ∈ before p.address ∨ q ∈ n.spec.follow p) :
    (∀ i, IsSet L (addFollow n.calcLastPos n.calcFirstPos after i)) ∧ ∀ p ∈ L, ∀ q,
      q ∈ addFollow n.calcLastPos n.calcFirstPos after p.address ↔ q ∈ before p.address ∨
        q ∈ n.spec.follow p ∪ {q | p ∈ n.spec.last ∧ q ∈ n.spec.first} := by
  obtain ⟨hlast, hlast'⟩ := calcLastPos_spec hL h hsub
  obtain ⟨hfirst, hfirst'⟩ := calcFirstPos_spec hL h hsub
  refine ⟨isSet_addFollow hL hfirst hn.1, fun p hp q => ?_⟩
  rw [mem_addFollow hL hfirst hp hlast.subset hn.1, hn.2 p hp, hlast', hfirst', or_assoc]
  rfl

theorem calcFollowPos_spec : ∀ {n : RBBINode} {followPos : FollowPos}, n.IsPlain →
    (∀ p ∈ n.leaves, p ∈ L) → (∀ i, IsSet L (followPos i)) →
    (∀ i, IsSet L (n.calcFollowPos followPos i)) ∧ ∀ p ∈ L, ∀ q,
      q ∈ n.calcFollowPos followPos p.address ↔ q ∈ followPos p.address ∨ q ∈ n.spec.follow p
  | leaf p, followPos, _, _, hf => ⟨hf, fun p _ q => by
    simp [calcFollowPos, spec, LocalSpec.letter]⟩
  | opOr l r, followPos, h, hsub, hf => by
    rw [IsPlain, leaves, List.forall_mem_append] at h
    rw [leaves, List.forall_mem_append] at hsub
    obtain ⟨hl, hl'⟩ := calcFollowPos_spec h.1 hsub.1 hf
    obtain ⟨hr, hr'⟩ := calcFollowPos_spec h.2 hsub.2 hl
    refine ⟨hr, fun p hp q => ?_⟩
    rw [calcFollowPos, hr' p hp, hl' p hp, or_assoc]
    rfl
  | opCat l r, followPos, h, hsub, hf => by
    rw [IsPlain, leaves, List.forall_mem_append] at h
    rw [leaves, List.forall_mem_append] at hsub
    obtain ⟨hl, hl'⟩ := calcFollowPos_spec h.1 hsub.1 hf
    obtain ⟨hr, hr'⟩ := calcFollowPos_spec h.2 hsub.2 hl
    obtain ⟨hlast, hlast'⟩ := calcLastPos_spec hL h.1 hsub.1
    obtain ⟨hfirst, hfirst'⟩ := calcFirstPos_spec hL h.2 hsub.2
    refine ⟨isSet_addFollow hL hfirst hr, fun p hp q => ?_⟩
    rw [calcFollowPos, mem_addFollow hL hfirst hp hlast.subset hr, hr' p hp, hl' p hp, hlast',
      hfirst', or_assoc, or_assoc]
    exact or_congr_right or_assoc.symm
  | opStar l, followPos, h, hsub, hf =>
    @addFollow_spec L hL l followPos (l.calcFollowPos followPos) h hsub
      (@calcFollowPos_spec l followPos h hsub hf)
  | opPlus l, followPos, h, hsub, hf =>
    @addFollow_spec L hL l followPos (l.calcFollowPos followPos) h hsub
      (@calcFollowPos_spec l followPos h hsub hf)
  | opQuestion l, followPos, h, hsub, hf => @calcFollowPos_spec l followPos h hsub hf

end

/-- The language of an expression, if a repetition with `opPlus` never is empty. -/
def strictLanguage : RBBINode → Language Nat
  | leaf p => {[p.fVal]}
  | opOr l r => l.strictLanguage + r.strictLanguage
  | opCat l r => l.strictLanguage * r.strictLanguage
  | opStar l => l.strictLanguage∗
  | opPlus l => l.strictLanguage∗ - 1
  | opQuestion l => l.strictLanguage + 1

theorem within_leaves : ∀ n : RBBINode, n.spec.Within {p | p ∈ n.leaves}
  | leaf p => by
    have hset : {q | q ∈ (leaf p).leaves} = {p} := by
      ext q
      simp [leaves]
    rw [hset]
    exact .letter p
  | opOr l r => by
    have hset : {q | q ∈ (opOr l r).leaves} = {q | q ∈ l.leaves} ∪ {q | q ∈ r.leaves} := by
      ext q
      simp [leaves]
    rw [hset]
    exact l.within_leaves.union r.within_leaves
  | opCat l r => by
    have hset : {q | q ∈ (opCat l r).leaves} = {q | q ∈ l.leaves} ∪ {q | q ∈ r.leaves} := by
      ext q
      simp [leaves]
    rw [hset]
    exact l.within_leaves.concat r.within_leaves
  | opStar l => l.within_leaves.closure
  | opPlus l => l.within_leaves.closure
  | opQuestion l => l.within_leaves.optional

theorem disjoint_leaves {l r : RBBINode} (h : (l.leaves ++ r.leaves).Nodup) :
    Disjoint {p | p ∈ l.leaves} {p | p ∈ r.leaves} := by
  rw [Set.disjoint_left]
  intro p hl hr
  exact (List.nodup_append'.mp h).2.2 hl hr

theorem language_spec : ∀ {n : RBBINode}, n.leaves.Nodup →
    n.spec.language Leaf.fVal = n.strictLanguage
  | leaf p, _ => LocalSpec.language_letter p
  | opOr l r, h => by
    obtain ⟨hl, hr, -⟩ := List.nodup_append'.mp h
    rw [spec, LocalSpec.language_union l.within_leaves r.within_leaves (disjoint_leaves h),
      language_spec hl, language_spec hr]
    rfl
  | opCat l r, h => by
    obtain ⟨hl, hr, -⟩ := List.nodup_append'.mp h
    rw [spec, LocalSpec.language_concat l.within_leaves r.within_leaves (disjoint_leaves h),
      language_spec hl, language_spec hr]
    rfl
  | opStar l, h => by
    rw [spec, LocalSpec.language_star, @language_spec l h]
    rfl
  | opPlus l, h => by
    rw [spec, LocalSpec.language_closure_false, @language_spec l h]
    rfl
  | opQuestion l, h => by
    rw [spec, LocalSpec.language_optional, @language_spec l h]
    rfl

/-- No operand of `opPlus` matches the empty string. -/
def PlusConsumes : RBBINode → Prop
  | leaf _ => True
  | opOr l r => l.PlusConsumes ∧ r.PlusConsumes
  | opCat l r => l.PlusConsumes ∧ r.PlusConsumes
  | opStar l => l.PlusConsumes
  | opPlus l => [] ∉ l.language ∧ l.PlusConsumes
  | opQuestion l => l.PlusConsumes

theorem strictLanguage_eq : ∀ {n : RBBINode}, n.PlusConsumes → n.strictLanguage = n.language
  | leaf _, _ => rfl
  | opOr l r, h => by rw [strictLanguage, strictLanguage_eq h.1, strictLanguage_eq h.2, language]
  | opCat l r, h => by rw [strictLanguage, strictLanguage_eq h.1, strictLanguage_eq h.2, language]
  | opStar l, h => by rw [strictLanguage, @strictLanguage_eq l h, language]
  | opPlus l, h => by
    rw [strictLanguage, strictLanguage_eq h.2, language]
    have hnil : [] ∉ l.language * l.language∗ := by
      rintro ⟨u, hu, v, hv, huv⟩
      rw [(List.append_eq_nil_iff.mp huv).1] at hu
      exact h.1 hu
    ext w
    rw [Language.mem_sub, Language.mem_one, ← Language.one_add_self_mul_kstar_eq_kstar,
      Language.mem_add, Language.mem_one, Language.one_add_self_mul_kstar_eq_kstar]
    constructor
    · exact fun hw => hw.1.resolve_left hw.2
    intro hw
    refine ⟨.inr hw, fun hcon => hnil ?_⟩
    rwa [← hcon]
  | opQuestion l, h => by rw [strictLanguage, @strictLanguage_eq l h, language]

end RBBINode

end Icu.Rbbi
