import Icu.Punycode.Decoder

/-! # The encoder as a sequence of insertions

The encoder goes through the code points in their order as numbers, and through the places
of each. Its delta is how far the decoder's cursor is behind, and so the deltas that it
writes insert every code point at its place.
-/

namespace Icu.Punycode

open Lib.InsertionCode Utf16

/-- The entry of `cpBuffer` for a code point. -/
def mark (c : Nat) : Nat := if c < 0x80 then 0 else c

def basicUnits (cps : List Nat) : List UInt16 :=
  (cps.filter (· < 0x80)).map UInt16.ofNat

theorem mark_lt_iff {c n : Nat} (hn : 0x80 ≤ n) : mark c < n ↔ c < n := by
  unfold mark
  split <;> omega

theorem mark_eq_iff {c n : Nat} (hn : 0x80 ≤ n) : mark c = n ↔ c = n := by
  unfold mark
  split <;> omega

theorem readSource_utf16 {cps : List Nat} (hscalar : ∀ c ∈ cps, IsScalar c) {srcCPCount : Nat}
    (hlen : srcCPCount + cps.length ≤ maxCpCount) :
    readSource (utf16 cps) srcCPCount = .ok (cps.map mark, basicUnits cps) := by
  induction cps generalizing srcCPCount with
  | nil => rfl
  | cons c cps ih =>
    obtain ⟨hc, htail⟩ := List.forall_mem_cons.mp hscalar
    have hle := hc.le
    have hnot := hc.not_range
    rw [List.length_cons] at hlen
    have hrest := @ih htail (srcCPCount + 1) (by omega)
    have hcount : srcCPCount ≠ maxCpCount := by omega
    rw [utf16_cons, List.map_cons]
    by_cases hbmp : c ≤ 0xffff
    · have hval := toNat_ofNat_bmp hbmp
      rw [unitsOf_bmp hbmp, List.singleton_append, readSource.eq_def]
      dsimp only
      rw [if_neg hcount, hrest]
      by_cases hbasic : c < 0x80
      · have hb : isBasic (UInt16.ofNat c) = true := decide_eq_true (by rw [hval]; exact hbasic)
        rw [if_pos hb]
        simp [Except.map, mark, basicUnits, hbasic]
      have hb : ¬ isBasic (UInt16.ofNat c) = true := by
        rw [isBasic, hval, decide_eq_true_eq]
        exact hbasic
      have hs : (!uIsSurrogate (UInt16.ofNat c).toNat) = true := by
        rw [hval, hc.not_surrogate]
        rfl
      rw [if_neg hb, if_pos hs, hval]
      simp [Except.map, mark, basicUnits, hbasic]
    · have hsup : 0xffff < c := by omega
      have hlead := u16IsLead_u16Lead hsup hle
      have hrange := (u16IsLead_iff (by have := (u16Lead c).toNat_lt; omega)).mp hlead
      have hb : ¬ isBasic (u16Lead c) = true := by
        rw [isBasic, decide_eq_true_eq]
        omega
      have hs : ¬ (!uIsSurrogate (u16Lead c).toNat) = true := by
        rw [Bool.not_eq_true, Bool.not_eq_false', uIsSurrogate_iff (by omega)]
        omega
      rw [unitsOf_supplementary hsup, List.cons_append, List.singleton_append, readSource,
        if_neg hcount, if_neg hb, if_neg hs, hlead, u16IsTrail_u16Trail,
        Bool.and_true, if_pos rfl, hrest, u16GetSupplementary_u16Lead_u16Trail hsup hle]
      simp [Except.map, mark, basicUnits, show ¬ c < 0x80 by omega]

/-! ## The deltas written so far -/

/-- The encoder has written these deltas, and further ones will continue them. -/
structure Writes (basic : List UInt16) (deltas : List Nat) (s : ToState) : Prop where
  count : s.handledCPCount = basic.length + deltas.length
  small : ∀ d ∈ deltas, d ≤ maxDelta
  dest : ∀ more, punycode basic (deltas ++ more) =
    s.dest ++ writeDeltas s.bias s.handledCPCount (s.handledCPCount == basic.length) more

def ToState.wrote (s : ToState) (basicLength : Nat) : ToState :=
  { s with dest := s.dest ++ writeDelta s.bias (s.delta + 1) s.delta base,
           bias := adaptBias s.delta (s.handledCPCount + 1) (s.handledCPCount == basicLength),
           delta := 0,
           handledCPCount := s.handledCPCount + 1 }

theorem Writes.wrote {basic : List UInt16} {deltas : List Nat} {s : ToState}
    (h : Writes basic deltas s) (hdelta : s.delta ≤ maxDelta) :
    Writes basic (deltas ++ [s.delta]) (s.wrote basic.length) := by
  have hfirst : (s.handledCPCount + 1 == basic.length) = false := by
    have := h.count
    rw [beq_eq_false_iff_ne]
    omega
  refine ⟨?_, ?_, fun more => ?_⟩
  · rw [List.length_append, List.length_singleton, ← Nat.add_assoc, ← h.count]
    rfl
  · intro d hd
    rcases List.mem_append.mp hd with hd | hd
    · exact h.small d hd
    rw [List.mem_singleton.mp hd]
    exact hdelta
  · rw [List.append_assoc, List.singleton_append, h.dest, writeDeltas, ← List.append_assoc]
    simp only [ToState.wrote, hfirst]

/-- The encoder between two places of a code point: what is not larger than `n` before the place
and what is smaller than `n` behind it has been inserted. -/
structure InPass (basic : List UInt16) (pre suf deltas : List Nat) (s : ToState) : Prop where
  writes : Writes basic deltas s
  le : ((startCursor basic).run deltas).n ≤ s.n
  list : ((startCursor basic).run deltas).list = pre.filter (· ≤ s.n) ++ suf.filter (· < s.n)
  delta : s.delta + ((startCursor basic).run deltas).i =
    (s.n - ((startCursor basic).run deltas).n) * (s.handledCPCount + 1) +
      (pre.filter (· ≤ s.n)).length

theorem Writes.length_run {basic : List UInt16} {deltas : List Nat} {s : ToState}
    (h : Writes basic deltas s) :
    ((startCursor basic).run deltas).list.length = s.handledCPCount := by
  rw [Cursor.length_run, startCursor, List.length_map, h.count]

section Pass

variable {basic : List UInt16} {pre suf deltas : List Nat} {s : ToState} {c : Nat}

theorem InPass.delta_lt (h : InPass basic pre suf deltas s) (hn : s.n ≤ 0x10ffff)
    (hlen : pre.length + suf.length ≤ maxCpCount) : s.delta < maxDelta := by
  have hdelta := h.delta
  have hlength := h.writes.length_run
  have hpre := List.length_filter_le (fun x => decide (x ≤ s.n)) pre
  have hsuf := List.length_filter_le (fun x => decide (x < s.n)) suf
  rw [h.list, List.length_append] at hlength
  have hmul : (s.n - ((startCursor basic).run deltas).n) * (s.handledCPCount + 1) ≤
      0x10ffff * (maxCpCount + 1) := Nat.mul_le_mul (by omega) (by omega)
  have hcount : maxCpCount = 200 := by decide
  rw [maxDelta_eq]
  rw [hcount] at hmul hlen
  omega

theorem InPass.skip (h : InPass basic pre (c :: suf) deltas s) (hc : s.n < c) :
    InPass basic (pre ++ [c]) suf deltas s := by
  have hpre : (pre ++ [c]).filter (· ≤ s.n) = pre.filter (· ≤ s.n) := by
    rw [List.filter_append, List.filter_cons_of_neg (by simpa using hc), List.filter_nil,
      List.append_nil]
  refine ⟨h.writes, h.le, ?_, ?_⟩
  · rw [hpre, h.list, List.filter_cons_of_neg (by simpa using Nat.le_of_lt hc)]
  · rw [hpre, h.delta]

theorem InPass.count (h : InPass basic pre (c :: suf) deltas s) (hc : c < s.n) :
    InPass basic (pre ++ [c]) suf deltas { s with delta := s.delta + 1 } := by
  have hpre : (pre ++ [c]).filter (· ≤ s.n) = pre.filter (· ≤ s.n) ++ [c] := by
    rw [List.filter_append, List.filter_cons_of_pos (by simpa using Nat.le_of_lt hc),
      List.filter_nil]
  refine ⟨⟨h.writes.count, h.writes.small, h.writes.dest⟩, h.le, ?_, ?_⟩
  · dsimp only
    rw [hpre, h.list, List.filter_cons_of_pos (by simpa using hc), List.append_assoc,
      List.singleton_append]
  · dsimp only
    rw [hpre, List.length_append, List.length_singleton, Nat.add_right_comm, h.delta, Nat.add_assoc]

theorem InPass.wrote (h : InPass basic pre (s.n :: suf) deltas s) (hdelta : s.delta ≤ maxDelta) :
    InPass basic (pre ++ [s.n]) suf (deltas ++ [s.delta]) (s.wrote basic.length) := by
  have hpre : (pre ++ [s.n]).filter (· ≤ s.n) = pre.filter (· ≤ s.n) ++ [s.n] := by
    rw [List.filter_append, List.filter_cons_of_pos (by simp), List.filter_nil]
  have hlist := h.list
  rw [List.filter_cons_of_neg (by simp)] at hlist
  have hplace : (pre.filter (· ≤ s.n)).length ≤ ((startCursor basic).run deltas).list.length := by
    rw [hlist, List.length_append]
    exact Nat.le_add_right _ _
  have hrun : (startCursor basic).run (deltas ++ [s.delta]) =
      ⟨s.n, (pre.filter (· ≤ s.n)).length + 1,
        insertAt (pre.filter (· ≤ s.n)).length s.n ((startCursor basic).run deltas).list⟩ := by
    rw [Cursor.run_append]
    refine Cursor.advance_eq h.le hplace ?_
    rw [h.writes.length_run, Nat.add_comm, h.delta]
  refine ⟨h.writes.wrote hdelta, ?_, ?_, ?_⟩
  · rw [hrun]
    exact Nat.le_refl _
  · rw [hrun]
    change insertAt _ _ _ = (pre ++ [s.n]).filter (· ≤ s.n) ++ suf.filter (· < s.n)
    rw [hpre, hlist, insertAt, List.take_left, List.drop_left, List.append_assoc,
      List.singleton_append]
  · rw [hrun]
    change 0 + _ = (s.n - s.n) * _ + ((pre ++ [s.n]).filter (· ≤ s.n)).length
    rw [hpre, List.length_append, List.length_singleton, Nat.sub_self, Nat.zero_mul]

theorem InPass.run (h : InPass basic pre suf deltas s) (hlow : 0x80 ≤ s.n) (hn : s.n ≤ 0x10ffff)
    (hlen : pre.length + suf.length ≤ maxCpCount) :
    ∃ s' deltas', encodePass basic.length (suf.map mark) s = .ok s' ∧ s'.n = s.n ∧
      InPass basic (pre ++ suf) [] deltas' s' := by
  induction suf generalizing pre deltas s with
  | nil =>
    refine ⟨s, deltas, rfl, rfl, ?_⟩
    rw [List.append_nil]
    exact h
  | cons c suf ih =>
    have hdelta := h.delta_lt hn hlen
    have hmax := maxDelta_eq
    have hint := int32Max_eq
    have hlen' : (pre ++ [c]).length + suf.length ≤ maxCpCount := by
      rw [List.length_append, List.length_singleton]
      rw [List.length_cons] at hlen
      omega
    rw [List.map_cons, encodePass, List.append_cons]
    split
    · next hlt =>
      rw [checked_of_le (by omega)]
      exact ih (h.count ((mark_lt_iff hlow).mp hlt)) hlow hn hlen'
    · next hge =>
      rw [mark_lt_iff hlow] at hge
      split
      · next heq =>
        rw [mark_eq_iff hlow] at heq
        subst heq
        exact ih (h.wrote (Nat.le_of_lt hdelta)) hlow hn hlen'
      · next hne =>
        rw [mark_eq_iff hlow] at hne
        exact ih (h.skip (by omega)) hlow hn hlen'

end Pass

/-! ## The main loop -/

theorem foldl_nextLarger (n m : Nat) (cpBuffer : List Nat) :
    let r := cpBuffer.foldl (fun m q => if n ≤ q ∧ q < m then q else m) m
    r ≤ m ∧ (r = m ∨ r ∈ cpBuffer ∧ n ≤ r) ∧ ∀ q ∈ cpBuffer, n ≤ q → r ≤ q := by
  induction cpBuffer generalizing m with
  | nil => exact ⟨Nat.le_refl _, Or.inl rfl, fun q hq => by cases hq⟩
  | cons q cpBuffer ih =>
    rw [List.foldl_cons]
    split
    · next hq =>
      obtain ⟨hle, hmem, hall⟩ := ih q
      refine ⟨Nat.le_trans hle (Nat.le_of_lt hq.2), Or.inr ?_, ?_⟩
      · rcases hmem with heq | ⟨hmem, hn⟩
        · rw [heq]
          exact ⟨List.mem_cons_self, hq.1⟩
        · exact ⟨List.mem_cons_of_mem _ hmem, hn⟩
      · exact List.forall_mem_cons.mpr ⟨fun _ => hle, hall⟩
    · next hq =>
      obtain ⟨hle, hmem, hall⟩ := ih m
      refine ⟨hle, hmem.imp_right (fun h => ⟨List.mem_cons_of_mem _ h.1, h.2⟩), ?_⟩
      exact List.forall_mem_cons.mpr ⟨fun hn => by omega, hall⟩

theorem nextLarger_mark {n : Nat} {cps : List Nat} (hlow : 0x80 ≤ n) (hle : ∀ c ∈ cps, c ≤ 0x10ffff)
    (hex : ∃ c ∈ cps, n ≤ c) : nextLarger n (cps.map mark) ∈ cps ∧ n ≤ nextLarger n (cps.map mark) ∧
      ∀ c ∈ cps, c < nextLarger n (cps.map mark) ↔ c < n := by
  have hint := int32Max_eq
  have hspec : (nextLarger n (cps.map mark) = int32Max ∨
      nextLarger n (cps.map mark) ∈ cps.map mark ∧ n ≤ nextLarger n (cps.map mark)) ∧
      ∀ q ∈ cps.map mark, n ≤ q → nextLarger n (cps.map mark) ≤ q :=
    (foldl_nextLarger n int32Max (cps.map mark)).2
  generalize nextLarger n (cps.map mark) = m at *
  obtain ⟨hmem, hall⟩ := hspec
  have hbelow : ∀ c ∈ cps, n ≤ c → m ≤ c := by
    intro c hc hnc
    have hmark := (mark_eq_iff (Nat.le_trans hlow hnc)).mpr rfl
    have := hall _ (List.mem_map_of_mem hc)
    rw [hmark] at this
    exact this hnc
  obtain ⟨c, hc, hnc⟩ := hex
  have hcm := hbelow c hc hnc
  have hcle := hle c hc
  obtain ⟨hmem, hnm⟩ := hmem.resolve_left (by omega)
  obtain ⟨x, hx, hxm⟩ := List.mem_map.mp hmem
  rw [mark_eq_iff (Nat.le_trans hlow hnm)] at hxm
  refine ⟨hxm ▸ hx, hnm, fun c hc => ⟨fun hlt => ?_, fun hlt => Nat.lt_of_lt_of_le hlt hnm⟩⟩
  by_contra hge
  have := hbelow c hc (Nat.le_of_not_lt hge)
  omega

section Round

variable {basic : List UInt16} {cps deltas : List Nat} {s : ToState}

theorem InPass.next (h : InPass basic [] cps deltas s) {m : Nat} (hnm : s.n ≤ m)
    (hsame : ∀ c ∈ cps, c < m ↔ c < s.n) : InPass basic [] cps deltas
      { s with n := m, delta := s.delta + (m - s.n) * (s.handledCPCount + 1) } := by
  have hlist := h.list
  have hdelta := h.delta
  have hle := h.le
  rw [List.filter_nil, List.nil_append] at hlist
  rw [List.filter_nil, List.length_nil, Nat.add_zero] at hdelta
  refine ⟨⟨h.writes.count, h.writes.small, h.writes.dest⟩, Nat.le_trans hle hnm, ?_, ?_⟩
  · rw [List.filter_nil, List.nil_append, hlist]
    exact List.filter_congr fun c hc => decide_eq_decide.mpr (hsame c hc).symm
  dsimp only
  rw [List.filter_nil, List.length_nil, Nat.add_zero, Nat.add_right_comm, hdelta, ← Nat.add_mul]
  congr 1
  omega

theorem InPass.restart (h : InPass basic cps [] deltas s) :
    InPass basic [] cps deltas { s with delta := s.delta + 1, n := s.n + 1 } := by
  have hlist := h.list
  have hdelta := h.delta
  have hle := h.le
  have hlength := h.writes.length_run
  rw [List.filter_nil, List.append_nil] at hlist
  rw [hlist] at hlength
  rw [hlength] at hdelta
  refine ⟨⟨h.writes.count, h.writes.small, h.writes.dest⟩, Nat.le_succ_of_le hle, ?_, ?_⟩
  · rw [List.filter_nil, List.nil_append, hlist]
    exact List.filter_congr fun c _ => decide_eq_decide.mpr Nat.lt_succ_iff.symm
  dsimp only
  rw [List.filter_nil, List.length_nil, Nat.add_right_comm, hdelta, Nat.succ_sub hle, Nat.succ_mul,
    Nat.add_assoc]
  rfl

theorem InPass.handled_lt {s' : ToState} {deltas' : List Nat} (h : InPass basic [] cps deltas s)
    (h' : InPass basic cps [] deltas' s') (hn : s'.n = s.n) (hmem : s.n ∈ cps) :
    s.handledCPCount < s'.handledCPCount := by
  have hlist := h.list
  have hlist' := h'.list
  rw [List.filter_nil, List.nil_append] at hlist
  rw [List.filter_nil, List.append_nil, hn] at hlist'
  have hsplit : cps.filter (· < s.n) = (cps.filter (· ≤ s.n)).filter (· < s.n) := by
    rw [List.filter_filter]
    refine List.filter_congr fun c _ => ?_
    by_cases hc : c < s.n
    · simp [hc, Nat.le_of_lt hc]
    · simp [hc]
  rw [← h.writes.length_run, ← h'.writes.length_run, hlist, hlist', hsplit,
    List.length_filter_lt_length_iff_exists]
  exact ⟨s.n, List.mem_filter.mpr ⟨hmem, by simp⟩, by simp⟩

/-- Something is left as long as not all code points are handled. -/
theorem InPass.exists_left (h : InPass basic [] cps deltas s)
    (hleft : s.handledCPCount < cps.length) : ∃ c ∈ cps, s.n ≤ c := by
  have hlist := h.list
  rw [List.filter_nil, List.nil_append] at hlist
  rw [← h.writes.length_run, hlist, List.length_filter_lt_length_iff_exists] at hleft
  obtain ⟨c, hc, hnot⟩ := hleft
  exact ⟨c, hc, by simpa using hnot⟩

theorem guard_false {m n delta count : Nat} (h : delta + (m - n) * (count + 1) ≤ maxDelta) :
    ¬ (m : Int) - n > ((int32Max : Int) - maxCpCount - delta).tdiv (count + 1) := by
  have hmax := maxDelta_eq
  have hint := int32Max_eq
  have hcount : maxCpCount = 200 := by decide
  rw [gt_iff_lt, Int.not_lt, Int.tdiv_eq_ediv_of_nonneg (by omega),
    Int.le_ediv_iff_mul_le (by omega)]
  have hmul : ((m : Int) - n) * (count + 1) ≤ ((m - n : Nat) : Int) * (count + 1) :=
    Int.mul_le_mul_of_nonneg_right (by omega) (by omega)
  have hcast : ((m - n : Nat) : Int) * (count + 1) = ((m - n) * (count + 1) : Nat) := by
    push_cast; rfl
  omega

theorem InPass.round (h : InPass basic [] cps deltas s) (hlow : 0x80 ≤ s.n)
    (hle : ∀ c ∈ cps, c ≤ 0x10ffff) (hlen : cps.length ≤ maxCpCount)
    (hleft : s.handledCPCount < cps.length) :
    ∃ s' deltas', encodeRound basic.length (cps.map mark) s = .ok s' ∧
      InPass basic [] cps deltas' s' ∧ 0x80 ≤ s'.n ∧ s.handledCPCount < s'.handledCPCount := by
  have hmax := maxDelta_eq
  have hint := int32Max_eq
  obtain ⟨hmem, hnm, hsame⟩ := nextLarger_mark hlow hle (h.exists_left hleft)
  unfold encodeRound
  generalize nextLarger s.n (cps.map mark) = m at *
  have hm := hle m hmem
  have hnext := h.next hnm hsame
  have hlt := hnext.delta_lt hm (by rw [List.length_nil, Nat.zero_add]; exact hlen)
  dsimp only at hlt ⊢
  obtain ⟨s', deltas', hpass, hn, hend⟩ :=
    hnext.run (Nat.le_trans hlow hnm) hm (by rw [List.length_nil, Nat.zero_add]; exact hlen)
  rw [List.nil_append] at hend
  have hlt' := hend.delta_lt (by rw [hn]; exact hm)
    (by rw [List.length_nil, Nat.add_zero]; exact hlen)
  have hcount := hnext.handled_lt hend hn hmem
  dsimp only at hn
  rw [if_neg (guard_false (Nat.le_of_lt hlt)), checked_of_le (by omega)]
  dsimp only
  rw [hpass]
  dsimp only
  rw [checked_of_le (by omega), checked_of_le (by omega)]
  refine ⟨_, deltas', rfl, hend.restart, ?_, hcount⟩
  dsimp only
  omega

theorem InPass.loop (h : InPass basic [] cps deltas s) (hlow : 0x80 ≤ s.n)
    (hle : ∀ c ∈ cps, c ≤ 0x10ffff) (hlen : cps.length ≤ maxCpCount) {fuel : Nat}
    (hfuel : cps.length < fuel + s.handledCPCount) :
    ∃ s' deltas', encodeLoop basic.length (cps.map mark) fuel s = .ok s' ∧
      Writes basic deltas' s' ∧ ((startCursor basic).run deltas').list = cps := by
  induction fuel generalizing deltas s with
  | zero =>
    have hlength := h.writes.length_run
    rw [h.list, List.filter_nil, List.nil_append] at hlength
    have := List.length_filter_le (fun x => decide (x < s.n)) cps
    omega
  | succ fuel ih =>
    rw [encodeLoop, List.length_map]
    split
    · next hleft =>
      obtain ⟨s', deltas', hround, hpass, hlow', hcount⟩ := h.round hlow hle hlen hleft
      rw [hround]
      exact ih hpass hlow' (by omega)
    · next hdone =>
      refine ⟨s, deltas, rfl, h.writes, ?_⟩
      have hlist := h.list
      rw [List.filter_nil, List.nil_append] at hlist
      refine hlist.trans (List.filter_sublist.eq_of_length_le ?_)
      rw [← hlist, h.writes.length_run]
      omega

end Round

theorem basicUnits_all (cps : List Nat) : (basicUnits cps).all isBasic = true := by
  rw [List.all_eq_true]
  intro u hu
  obtain ⟨c, hc, rfl⟩ := List.mem_map.mp hu
  have hlt : c < 0x80 := of_decide_eq_true (List.mem_filter.mp hc).2
  rw [isBasic, toNat_ofNat_bmp (by omega), decide_eq_true_eq]
  exact hlt

theorem map_toNat_basicUnits (cps : List Nat) :
    (basicUnits cps).map (·.toNat) = cps.filter (· < 0x80) := by
  rw [basicUnits, List.map_map]
  refine (List.map_congr_left fun c hc => ?_).trans (List.map_id _)
  have hlt : c < 0x80 := of_decide_eq_true (List.mem_filter.mp hc).2
  exact toNat_ofNat_bmp (by omega)

theorem uStrToPunycode_utf16 {cps : List Nat} (hscalar : ∀ c ∈ cps, IsScalar c)
    (hlen : cps.length ≤ maxCpCount) : ∃ deltas, (∀ d ∈ deltas, d ≤ maxDelta) ∧
      ((startCursor (basicUnits cps)).run deltas).list = cps ∧
      ∀ destCapacity, uStrToPunycode (utf16 cps) destCapacity =
        .ok (uTerminateUChars ((punycode (basicUnits cps) deltas).take destCapacity) destCapacity
          (punycode (basicUnits cps) deltas).length) := by
  have hstart : InPass (basicUnits cps) [] cps []
      ⟨initialN, 0, initialBias, (basicUnits cps).length, closeBasic (basicUnits cps)⟩ := by
    refine ⟨⟨rfl, List.forall_mem_nil _, fun more => ?_⟩, Nat.le_refl _, ?_, ?_⟩
    · rw [List.nil_append, beq_self_eq_true]
      rfl
    · exact map_toNat_basicUnits cps
    · rw [Cursor.run_nil, startCursor, Nat.sub_self, Nat.zero_mul]
      rfl
  have hfuel : cps.length < cps.length + 1 + (basicUnits cps).length := by omega
  obtain ⟨s, deltas, hloop, hwrites, hlist⟩ :=
    hstart.loop (Nat.le_refl _) (fun c hc => (hscalar c hc).le) hlen hfuel
  have hdest := hwrites.dest []
  rw [List.append_nil, writeDeltas, List.append_nil] at hdest
  refine ⟨deltas, hwrites.small, hlist, fun destCapacity => ?_⟩
  rw [uStrToPunycode, readSource_utf16 hscalar (by omega)]
  dsimp only
  rw [List.length_map, hdest, ← closeBasic, hloop]

end Icu.Punycode
