import Wrkz.Chain.AddBlock

/-!
The set of alternative blocks: pruning and dropping only remove, and the branch
of a block that has just been kept is the branch of its parent and the block.
-/

set_option autoImplicit false

namespace Wrkz

open Library ChainState

variable {cx : Crypto} {U : Set RawBlock} {I : ChainState → MainChain cx → Prop}
  {s : ChainState} {chain : MainChain cx}

/-- Every block of `alts'` is in `alts`, under the same id. -/
def AltBlocks.SubsetOf (alts' alts : AltBlocks) : Prop :=
  ∀ x alt, alts'.lookup x = some alt → alts.lookup x = some alt

namespace AltBlocks.SubsetOf

theorem refl (alts : AltBlocks) : alts.SubsetOf alts := fun _ _ h => h

theorem trans {a b c : AltBlocks} (h : a.SubsetOf b) (h' : b.SubsetOf c) : a.SubsetOf c :=
  fun x alt hx => h' x alt (h x alt hx)

theorem dropAll (alts : AltBlocks) (hs : List Hash) : (alts.dropAll hs).SubsetOf alts :=
  fun _ _ hx => dropAll_lookup_some hx

theorem foldl_dropAll (segments : List (List Hash)) (alts : AltBlocks) :
    (segments.foldl AltBlocks.dropAll alts).SubsetOf alts := by
  induction segments generalizing alts with
  | nil => exact refl alts
  | cons hs segments ih => exact (ih (alts.dropAll hs)).trans (dropAll alts hs)

theorem pruneWhile (tooMany : AltBlocks → Bool) (exclude : Option Hash) (fuel : Nat)
    (alts : AltBlocks) : (AltBlocks.pruneWhile tooMany exclude fuel alts).SubsetOf alts := by
  induction fuel generalizing alts with
  | zero => exact refl alts
  | succ fuel ih =>
    unfold AltBlocks.pruneWhile
    split
    · split
      · exact refl alts
      · exact (ih _).trans (dropAll _ _)
    · exact refl alts

theorem prune (tip : Nat) (exclude : Option Hash) (alts : AltBlocks) :
    (AltBlocks.prune tip exclude alts).SubsetOf alts :=
  ((pruneWhile _ _ _ _).trans (pruneWhile _ _ _ _)).trans (foldl_dropAll _ _)

end AltBlocks.SubsetOf

theorem pruned_subsetOf (s : ChainState) (exclude : Option Hash) :
    (s.pruned exclude).altBlocks.SubsetOf s.altBlocks := by
  unfold pruned
  split
  · exact .refl _
  · exact .prune _ _ _

theorem pruned_eq (s : ChainState) (exclude : Option Hash) :
    s.pruned exclude = { s with altBlocks := (s.pruned exclude).altBlocks } := by
  unfold pruned
  split <;> rfl

theorem Kept.pruned (h : Kept U I s chain) (hI : Stable U I) (exclude : Option Hash) :
    Kept U I (s.pruned exclude) chain := by
  rw [pruned_eq]
  exact h.branches hI (h.sound.alts.mono (pruned_subsetOf s exclude)) s.unwound

variable {hash : Hash} {parentAlt : Option Hash} {infos : List BlockInfo} {x : Hash}
  {t : ChainState} {prev : Nat}

section

variable (halts : t.altBlocks = s.altBlocks)
  (hindex : ∀ h, t.blockIndexByHash h = s.blockIndexByHash h)
include halts hindex

theorem branchLoop_congr (fuel : Nat) (cursor : Hash)
    (acc : List Hash) : t.branchLoop fuel cursor acc = s.branchLoop fuel cursor acc := by
  induction fuel generalizing cursor acc with
  | zero =>
    unfold branchLoop
    rw [halts, hindex]
  | succ fuel ih =>
    unfold branchLoop
    simp only [halts, hindex, ih]

theorem branchHashes_congr (hash : Hash) : t.branchHashes hash = s.branchHashes hash := by
  unfold branchHashes
  rw [halts, branchLoop_congr halts hindex]

end

theorem branchLoop_acc (fuel : Nat) (cursor : Hash) (acc : List Hash) :
    s.branchLoop fuel cursor acc =
      (s.branchLoop fuel cursor []).map fun r => (r.1,r.2 ++ acc) := by
  induction fuel generalizing cursor acc with
  | zero =>
    unfold branchLoop
    cases s.altBlocks.lookup cursor with
    | none =>
      cases s.blockIndexByHash cursor with
      | none => simp [orRefuse, bind, Except.bind, Except.map]
      | some i => simp [orRefuse, bind, Except.bind, pure, Except.pure, Except.map]
    | some alt => rfl
  | succ fuel ih =>
    unfold branchLoop
    cases s.altBlocks.lookup cursor with
    | none =>
      cases s.blockIndexByHash cursor with
      | none => simp [orRefuse, bind, Except.bind, Except.map]
      | some i => simp [orRefuse, bind, Except.bind, pure, Except.pure, Except.map]
    | some alt =>
      simp only
      rw [ih alt.prevHash (cursor :: acc), ih alt.prevHash [cursor]]
      cases s.branchLoop fuel alt.prevHash [] with
      | error e => rfl
      | ok r => simp [Except.map]

theorem hasBlock_false (h : s.hasBlock hash = false) :
    s.altBlocks.lookup hash = none ∧ s.blockIndexByHash hash = none := by
  simpa [hasBlock] using h

theorem branchLoop_withAlt (alt : AltBlock) (hfresh : s.hasBlock hash = false) {fuel i : Nat}
    {cursor : Hash} {acc branch : List Hash} (h : s.branchLoop fuel cursor acc = .ok (i,branch)) :
    (s.withAlt hash alt).branchLoop fuel cursor acc = .ok (i,branch) := by
  obtain ⟨hnotAlt,hnotMain⟩ := hasBlock_false hfresh
  have hlookup {x : Hash} (hne : x ≠ hash) :
      (s.withAlt hash alt).altBlocks.lookup x = s.altBlocks.lookup x :=
    AList.lookup_insert_ne hne
  induction h using branchLoop_induction with
  | main fuel cursor _ hl hj =>
    have hne : cursor ≠ hash := by
      rintro rfl
      cases hnotMain.symm.trans hj
    have hj' : (s.withAlt hash alt).blockIndexByHash cursor = some i := hj
    unfold branchLoop
    rw [hlookup hne, hl, hj']
    rfl
  | held fuel cursor acc a _ _ hl ih =>
    have hne : cursor ≠ hash := by
      rintro rfl
      cases hnotAlt.symm.trans hl
    unfold branchLoop
    rw [hlookup hne, hl]
    exact ih

theorem length_withAlt (alt : AltBlock) (hfresh : s.hasBlock hash = false) :
    (s.withAlt hash alt).altBlocks.length = s.altBlocks.length + 1 := by
  have hmem : hash ∉ s.altBlocks := AList.lookup_eq_none.1 (hasBlock_false hfresh).1
  simp only [withAlt, AltBlocks.length, AList.entries_insert_of_notMem hmem, List.length_cons]

theorem branchHashes_withAlt (alt : AltBlock) (hfresh : s.hasBlock hash = false)
    {fork : Nat} {branch : List Hash} (h : s.branchHashes alt.prevHash = .ok (fork,branch)) :
    (s.withAlt hash alt).branchHashes hash = .ok (fork,branch ++ [hash]) := by
  have hlen := length_withAlt alt hfresh
  have hl : (s.withAlt hash alt).altBlocks.lookup hash = some alt := by
    simp [withAlt]
  have hloop := branchLoop_withAlt alt hfresh h
  unfold branchHashes
  rw [hlen]
  conv_lhs => unfold branchLoop
  simp only [hl]
  rw [branchLoop_acc, hloop]
  rfl

theorem branchHashes_of_main {i : Nat} (hnone : s.altBlocks.lookup x = none)
    (hi : s.blockIndexByHash x = some i) : s.branchHashes x = .ok (i,[]) := by
  unfold branchHashes branchLoop
  simp [hnone, hi, orRefuse, bind, Except.bind, pure, Except.pure]

theorem locateParent_mainDepth (h : s.locateParent x = .ok (.mainDepth prev)) :
    s.altBlocks.lookup x = none ∧ s.blockIndexByHash x = some prev ∧ s.tip ≠ some prev := by
  unfold locateParent at h
  split at h
  · cases h
  · rename_i hnone
    split at h
    · cases h
    · rename_i i hi
      split at h
      · cases h
      · rename_i htip
        cases h
        exact ⟨hnone,hi,fun heq => htip heq.symm⟩

theorem locateParent_alternative {x parent : Hash}
    (h : s.locateParent x = .ok (.alternative parent prev)) :
    parent = x ∧ ∃ alt, s.altBlocks.lookup x = some alt ∧ alt.index = prev := by
  unfold locateParent at h
  split at h
  · rename_i alt halt
    cases h
    exact ⟨rfl,alt,halt,rfl⟩
  · split at h
    · cases h
    · split at h <;> cases h

theorem branchInfos_ok {prev fork : Nat}
    (hlocated : s.locateParent x = .ok (Parent.ofBranch parentAlt prev))
    (hinfos : s.branchInfos parentAlt prev = .ok (fork,infos)) :
    ∃ branch, s.branchHashes x = .ok (fork,branch) ∧
      infos = branch.filterMap (fun x => (s.altBlocks.lookup x).map AltBlock.info) := by
  cases parentAlt with
  | none =>
    obtain ⟨hnone,hi,_⟩ := locateParent_mainDepth hlocated
    simp only [branchInfos, Except.ok.injEq, Prod.mk.injEq] at hinfos
    obtain ⟨rfl,rfl⟩ := hinfos
    exact ⟨[],branchHashes_of_main hnone hi,rfl⟩
  | some parent =>
    obtain ⟨rfl,_⟩ := locateParent_alternative hlocated
    simp only [branchInfos, bind_ok_iff, Prod.exists, pure_ok_iff, Prod.mk.injEq] at hinfos
    obtain ⟨i,branch,hbranch,rfl,rfl⟩ := hinfos
    exact ⟨branch,hbranch,rfl⟩

theorem PassedAlternative.branchHashes {raw : RawBlock} {block : BlockTemplate}
    {prev d fork : Nat} {info : BlockInfo}
    (h : PassedAlternative cx s raw block hash prev parentAlt fork infos info d) :
    ∃ branch, s.branchHashes block.previousBlockHash = .ok (fork,branch) ∧
      infos = branch.filterMap (fun x => (s.altBlocks.lookup x).map AltBlock.info) :=
  branchInfos_ok h.located h.branchInfos

end Wrkz
