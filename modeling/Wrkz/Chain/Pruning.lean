import Wrkz.Chain.Rooted

/-!
Pruning the branches. Each pass drops leaf segments, a leaf with the blocks below
it down to the first that another block builds on; so nothing that stays loses
its parent. When pruning ends, the limits hold or the only leaf left is the one
that may not be dropped.
-/

set_option autoImplicit false

namespace Wrkz

open Library List

namespace AltBlocks

variable {alts : AltBlocks} {x y leaf : Hash} {a : AltBlock} {exclude : Option Hash}

theorem mem_keys_iff : x ∈ alts.keys ↔ ∃ a, alts.lookup x = some a := by
  rw [← Option.isSome_iff_exists, AList.lookup_isSome]
  exact AList.mem_keys.symm

theorem mem_leaves_iff : leaf ∈ alts.leaves ↔ (∃ a, alts.lookup leaf = some a) ∧
    ∀ x a, alts.lookup x = some a → a.prevHash ≠ leaf := by
  unfold leaves
  rw [mem_filter, mem_keys_iff]
  refine and_congr_right fun _ => ?_
  simp only [isParent, decide_eq_true_eq, any_eq_false]
  constructor
  · intro h x a ha
    exact h ⟨x,a⟩ (mem_entries_iff.2 ha)
  · intro h e he
    exact h e.1 e.2 (mem_entries_iff.1 he)

theorem child_unique (h : ¬ 1 < alts.children y) {x' : Hash} {a' : AltBlock}
    (hx : alts.lookup x = some a) (hxy : a.prevHash = y) (hx' : alts.lookup x' = some a')
    (hxy' : a'.prevHash = y) : x' = x := by
  unfold children at h
  rw [countP_eq_length_filter] at h
  have hmem : (⟨x,a⟩ : Sigma fun _ : Hash => AltBlock) ∈
      alts.entries.filter (fun e => e.2.prevHash = y) :=
    mem_filter.2 ⟨mem_entries_iff.2 hx,by simp [hxy]⟩
  have hmem' : (⟨x',a'⟩ : Sigma fun _ : Hash => AltBlock) ∈
      alts.entries.filter (fun e => e.2.prevHash = y) :=
    mem_filter.2 ⟨mem_entries_iff.2 hx',by simp [hxy']⟩
  cases hfilter : alts.entries.filter (fun e => e.2.prevHash = y) with
  | nil =>
    rw [hfilter] at hmem
    cases hmem
  | cons e rest =>
    rw [hfilter] at h hmem hmem'
    have hrest : rest = [] := by
      cases rest with
      | nil => rfl
      | cons e' rest =>
        simp only [length_cons] at h
        omega
    subst hrest
    have heq := (mem_singleton.1 hmem').trans (mem_singleton.1 hmem).symm
    cases heq
    rfl

theorem segmentBelow_closed : ∀ (fuel : Nat) {cursor child : Hash} {c : AltBlock},
    alts.lookup child = some c → c.prevHash = cursor →
    ∀ y ∈ alts.segmentBelow fuel cursor, ∀ x a, alts.lookup x = some a → a.prevHash = y →
      x ∈ child :: alts.segmentBelow fuel cursor := by
  intro fuel
  induction fuel with
  | zero =>
    intro cursor child c _ _ y hy
    simp [segmentBelow] at hy
  | succ fuel ih =>
    intro cursor child c hchild hcursor y hy x a hx hxy
    unfold segmentBelow at hy ⊢
    cases hl : alts.lookup cursor with
    | none =>
      rw [hl] at hy
      simp at hy
    | some b =>
      rw [hl] at hy
      simp only at hy ⊢
      by_cases hmany : 1 < alts.children cursor
      · rw [if_pos hmany] at hy
        simp at hy
      · rw [if_neg hmany] at hy ⊢
        rcases mem_cons.1 hy with rfl | hy
        · rw [child_unique hmany hchild hcursor hx hxy]
          exact mem_cons_self
        · have := ih hl rfl y hy x a hx hxy
          exact mem_cons_of_mem _ this

theorem leafSegment_closed (hleaf : leaf ∈ alts.leaves) :
    alts.ClosedUnder (alts.leafSegment leaf) := by
  obtain ⟨⟨b,hb⟩,hnone⟩ := mem_leaves_iff.1 hleaf
  intro x a hx hmem
  unfold leafSegment at hmem ⊢
  rw [hb] at hmem ⊢
  simp only at hmem ⊢
  rcases mem_cons.1 hmem with heq | hmem
  · exact absurd heq (hnone x a hx)
  · exact segmentBelow_closed _ hb rfl _ hmem x a hx rfl

theorem segmentBelow_end (alts : AltBlocks) : ∀ (fuel : Nat) (cursor : Hash), ∃ stop,
    (cursor ∈ alts.segmentBelow fuel cursor ∨ cursor = stop) ∧
      ∀ x ∈ alts.segmentBelow fuel cursor, ∀ a, alts.lookup x = some a →
        a.prevHash ∈ alts.segmentBelow fuel cursor ∨ a.prevHash = stop := by
  intro fuel
  induction fuel with
  | zero =>
    intro cursor
    exact ⟨cursor,.inr rfl,by simp [segmentBelow]⟩
  | succ fuel ih =>
    intro cursor
    unfold segmentBelow
    cases hl : alts.lookup cursor with
    | none => exact ⟨cursor,.inr rfl,by simp⟩
    | some b =>
      simp only
      by_cases hmany : 1 < alts.children cursor
      · rw [if_pos hmany]
        exact ⟨cursor,.inr rfl,by simp⟩
      · rw [if_neg hmany]
        obtain ⟨stop,hfirst,hall⟩ := ih b.prevHash
        refine ⟨stop,.inl mem_cons_self,?_⟩
        intro x hx a ha
        rcases mem_cons.1 hx with rfl | hx
        · rw [hl] at ha
          cases ha
          exact hfirst.imp_left fun h => mem_cons_of_mem _ h
        · exact (hall x hx a ha).imp_left fun h => mem_cons_of_mem _ h

theorem leafSegment_end (alts : AltBlocks) (leaf : Hash) : ∃ stop, ∀ x ∈ alts.leafSegment leaf, ∀ a,
    alts.lookup x = some a → a.prevHash ∈ alts.leafSegment leaf ∨ a.prevHash = stop := by
  unfold leafSegment
  cases hl : alts.lookup leaf with
  | none =>
    refine ⟨leaf,?_⟩
    intro x hx a ha
    rw [mem_singleton.1 hx, hl] at ha
    cases ha
  | some b =>
    obtain ⟨stop,hfirst,hall⟩ := segmentBelow_end alts alts.length b.prevHash
    refine ⟨stop,?_⟩
    intro x hx a ha
    rcases mem_cons.1 hx with rfl | hx
    · rw [hl] at ha
      cases ha
      exact hfirst.imp_left fun h => mem_cons_of_mem _ h
    · exact (hall x hx a ha).imp_left fun h => mem_cons_of_mem _ h

theorem mem_leafSegment (leaf : Hash) : leaf ∈ alts.leafSegment leaf := by
  unfold leafSegment
  cases alts.lookup leaf <;> simp

theorem leaves_nodup : alts.leaves.Nodup := alts.keys_nodup.filter _

theorem leaves_dropAll_length_le (hleaf : leaf ∈ alts.leaves) :
    (AltBlocks.leaves (alts.dropAll (alts.leafSegment leaf))).length ≤ alts.leaves.length := by
  obtain ⟨stop,hstop⟩ := leafSegment_end alts leaf
  have hsub : AltBlocks.leaves (alts.dropAll (alts.leafSegment leaf)) ⊆
      stop :: alts.leaves.erase leaf := by
    intro x hx
    obtain ⟨⟨a,ha⟩,hnone⟩ := mem_leaves_iff.1 hx
    have hnot : x ∉ alts.leafSegment leaf := by
      intro hmem
      rw [dropAll_lookup, if_pos hmem] at ha
      cases ha
    by_cases hold : x ∈ alts.leaves
    · have hne : x ≠ leaf := by
        intro heq
        subst heq
        exact hnot (mem_leafSegment x)
      exact mem_cons_of_mem _ ((mem_erase_of_ne hne).2 hold)
    · -- its child was in the segment, so it is the block below the segment
      have hchild : ∃ z c, alts.lookup z = some c ∧ c.prevHash = x := by
        by_contra hno
        refine hold (mem_leaves_iff.2 ⟨⟨a,dropAll_lookup_some ha⟩,?_⟩)
        intro z c hz heq
        exact hno ⟨z,c,hz,heq⟩
      obtain ⟨z,c,hz,heq⟩ := hchild
      have hgone : z ∈ alts.leafSegment leaf := by
        by_contra hkeep
        exact hnone z c (by rw [dropAll_lookup, if_neg hkeep]; exact hz) heq
      rcases hstop z hgone c hz with hmem | hend
      · rw [heq] at hmem
        exact absurd hmem hnot
      · rw [heq] at hend
        rw [hend]
        exact mem_cons_self
  have hle := (leaves_nodup.subperm hsub).length_le
  have hpos := length_pos_of_mem hleaf
  rw [length_cons, length_erase_of_mem hleaf] at hle
  omega

theorem weakest_mem : ∀ {candidates : List (Hash × AltBlock)} {c : Hash × AltBlock},
    weakest candidates = some c → c ∈ candidates := by
  intro candidates
  induction candidates with
  | nil =>
    intro c h
    cases h
  | cons d rest ih =>
    intro c h
    unfold weakest at h
    cases hrest : weakest rest with
    | none =>
      rw [hrest] at h
      cases h
      exact mem_cons_self
    | some e =>
      rw [hrest] at h
      simp only at h
      split at h
      · cases h
        exact mem_cons_of_mem _ (ih hrest)
      · cases h
        exact mem_cons_self

theorem weakest_eq_none {candidates : List (Hash × AltBlock)} (h : weakest candidates = none) :
    candidates = [] := by
  cases candidates with
  | nil => rfl
  | cons d rest =>
    unfold weakest at h
    split at h
    · cases h
    · split at h <;> cases h

theorem weakestLeaf_some (h : alts.weakestLeaf exclude = some leaf) : leaf ∈ alts.leaves := by
  unfold weakestLeaf at h
  obtain ⟨⟨y,a⟩,hweakest,rfl⟩ := Option.map_eq_some_iff.1 h
  obtain ⟨z,hz,hmap⟩ := mem_filterMap.1 (weakest_mem hweakest)
  obtain ⟨a',_,heq⟩ := Option.map_eq_some_iff.1 hmap
  cases heq
  exact (mem_filter.1 hz).1

theorem weakestLeaf_none (h : alts.weakestLeaf exclude = none) :
    ∀ leaf ∈ alts.leaves, some leaf = exclude := by
  intro leaf hleaf
  by_contra hne
  obtain ⟨⟨a,ha⟩,_⟩ := mem_leaves_iff.1 hleaf
  unfold weakestLeaf at h
  have hnil := weakest_eq_none (Option.map_eq_none_iff.1 h)
  have hmem : (leaf,a) ∈ (alts.leaves.filter (fun h => some h ≠ exclude)).filterMap fun h =>
      (alts.lookup h).map fun b => (h,b) := by
    refine mem_filterMap.2 ⟨leaf,mem_filter.2 ⟨hleaf,by simpa using hne⟩,?_⟩
    rw [ha]
    rfl
  rw [hnil] at hmem
  cases hmem

theorem ClosedUnder.flatten {segments : List (List Hash)}
    (h : ∀ segment ∈ segments, alts.ClosedUnder segment) : alts.ClosedUnder segments.flatten := by
  intro x a hx hmem
  obtain ⟨segment,hsegment,hprev⟩ := mem_flatten.1 hmem
  exact mem_flatten.2 ⟨segment,hsegment,h segment hsegment x a hx hprev⟩

theorem foldl_dropAll_eq (segments : List (List Hash)) (alts : AltBlocks) :
    segments.foldl dropAll alts = alts.dropAll segments.flatten := by
  induction segments generalizing alts with
  | nil => rfl
  | cons segment segments ih =>
    rw [foldl_cons, ih, flatten_cons]
    simp only [dropAll, foldl_append]

theorem staleSegments_closed (tip : Nat) (exclude : Option Hash) :
    alts.ClosedUnder (alts.staleSegments tip exclude).flatten := by
  refine ClosedUnder.flatten ?_
  intro segment hsegment
  obtain ⟨leaf,hleaf,rfl⟩ := mem_map.1 hsegment
  exact leafSegment_closed (mem_filter.1 (mem_filter.1 hleaf).1).1

/-- What survives dropping blocks with everything built on them survives pruning. -/
theorem prune_induction {P : AltBlocks → Prop}
    (hdrop : ∀ (alts : AltBlocks) (doomed : List Hash), alts.ClosedUnder doomed → P alts →
      P (alts.dropAll doomed))
    (tip : Nat) (exclude : Option Hash) (h : P alts) : P (alts.prune tip exclude) := by
  have hwhile : ∀ (tooMany : AltBlocks → Bool) (fuel : Nat) (alts : AltBlocks), P alts →
      P (pruneWhile tooMany exclude fuel alts) := by
    intro tooMany fuel
    induction fuel with
    | zero => exact fun _ h => h
    | succ fuel ih =>
      intro alts h
      unfold pruneWhile
      split
      · cases hleaf : alts.weakestLeaf exclude with
        | none => exact h
        | some leaf => exact ih _ (hdrop _ _ (leafSegment_closed (weakestLeaf_some hleaf)) h)
      · exact h
  unfold prune
  refine hwhile _ _ _ (hwhile _ _ _ ?_)
  rw [foldl_dropAll_eq]
  exact hdrop _ _ (staleSegments_closed tip exclude) h

theorem length_dropAll_lt (hleaf : leaf ∈ alts.leaves) :
    AltBlocks.length (alts.dropAll (alts.leafSegment leaf)) < alts.length := by
  have hkeys : leaf ∈ alts.keys := mem_keys_iff.2 (mem_leaves_iff.1 hleaf).1
  have hsub : AList.keys (alts.dropAll (alts.leafSegment leaf)) ⊆ alts.keys.erase leaf := by
    intro x hx
    obtain ⟨a,ha⟩ := mem_keys_iff.1 hx
    have hne : x ≠ leaf := by
      intro heq
      subst heq
      rw [dropAll_lookup, if_pos (mem_leafSegment x)] at ha
      cases ha
    exact (mem_erase_of_ne hne).2 (mem_keys_iff.2 ⟨a,dropAll_lookup_some ha⟩)
  have hle := ((AList.keys_nodup _).subperm hsub).length_le
  have hpos := length_pos_of_mem hkeys
  rw [length_erase_of_mem hkeys, length_keys, length_keys] at hle
  rw [length_keys] at hpos
  omega

theorem pruneWhile_done (tooMany : AltBlocks → Bool)
    (hempty : ∀ alts : AltBlocks, alts.length = 0 → tooMany alts = false) (exclude : Option Hash) :
    ∀ (fuel : Nat) (alts : AltBlocks), alts.length ≤ fuel →
      tooMany (pruneWhile tooMany exclude fuel alts) = false ∨
        (pruneWhile tooMany exclude fuel alts).weakestLeaf exclude = none := by
  intro fuel
  induction fuel with
  | zero => exact fun alts h => .inl (hempty alts (by omega))
  | succ fuel ih =>
    intro alts h
    unfold pruneWhile
    split
    · cases hleaf : alts.weakestLeaf exclude with
      | none => exact .inr hleaf
      | some leaf =>
        have hlt := length_dropAll_lt (weakestLeaf_some hleaf)
        exact ih _ (by omega)
    · rename_i hfew
      exact .inl (by simpa using hfew)

theorem leaves_pruneWhile_le (tooMany : AltBlocks → Bool) (exclude : Option Hash) :
    ∀ (fuel : Nat) (alts : AltBlocks),
      (pruneWhile tooMany exclude fuel alts).leaves.length ≤ alts.leaves.length := by
  intro fuel
  induction fuel with
  | zero => exact fun _ => Nat.le_refl _
  | succ fuel ih =>
    intro alts
    unfold pruneWhile
    split
    · cases hleaf : alts.weakestLeaf exclude with
      | none => exact Nat.le_refl _
      | some leaf => exact (ih _).trans (leaves_dropAll_length_le (weakestLeaf_some hleaf))
    · exact Nat.le_refl _

theorem pruneWhile_of_none {tooMany : AltBlocks → Bool} (h : alts.weakestLeaf exclude = none)
    (fuel : Nat) : pruneWhile tooMany exclude fuel alts = alts := by
  cases fuel with
  | zero => rfl
  | succ fuel =>
    unfold pruneWhile
    rw [h]
    split <;> rfl

theorem leaves_length_le (alts : AltBlocks) : alts.leaves.length ≤ alts.length := by
  rw [← length_keys]
  exact length_filter_le _ _

/-- After pruning the limits hold, or nothing is left that could be dropped. -/
theorem prune_limits (tip : Nat) (exclude : Option Hash) (alts : AltBlocks) :
    ((alts.prune tip exclude).leaves.length ≤ cryptonoteMaxAltChainCount ∧
      (alts.prune tip exclude).length ≤ cryptonoteMaxAltBlockCount) ∨
    ∀ leaf ∈ (alts.prune tip exclude).leaves, some leaf = exclude := by
  unfold prune
  dsimp only
  generalize (alts.staleSegments tip exclude).foldl dropAll alts = first
  rcases pruneWhile_done tooManyLeaves (fun alts h => by
      have := leaves_length_le alts
      simp [tooManyLeaves]
      omega) exclude first.length first (Nat.le_refl _) with hleaves | hnone
  · generalize pruneWhile tooManyLeaves exclude first.length first = second at hleaves ⊢
    rcases pruneWhile_done tooManyBlocks (fun alts h => by
        simp [tooManyBlocks, h]) exclude second.length second (Nat.le_refl _) with hblocks | hnone
    · refine .inl ⟨(leaves_pruneWhile_le _ _ _ _).trans ?_,?_⟩
      · simpa [tooManyLeaves] using hleaves
      · simpa [tooManyBlocks] using hblocks
    · exact .inr (weakestLeaf_none hnone)
  · rw [pruneWhile_of_none hnone]
    exact .inr (weakestLeaf_none hnone)

end AltBlocks

theorem Rooted.prune {cx : Crypto} {cfg : Config} {checkpoints : Checkpoints} {now : Nat}
    {alts : AltBlocks} {chain : MainChain cx} (h : Rooted cfg checkpoints now alts chain)
    (tip : Nat) (exclude : Option Hash) :
    Rooted cfg checkpoints now (alts.prune tip exclude) chain :=
  AltBlocks.prune_induction (P := fun alts => Rooted cfg checkpoints now alts chain)
    (fun _ _ hclosed h => h.drop hclosed) tip exclude h

end Wrkz
