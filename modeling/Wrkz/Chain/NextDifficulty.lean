import Wrkz.Chain.Sample

/-!
When the next block has a difficulty. The rules divide by the time the last blocks
took, which the timestamps decide; where they give no value, or zero, no block can
be added to the tip.
-/

set_option autoImplicit false

namespace Wrkz

open Library List

def windowSpan (timestamps : List Nat) : Nat :=
  timeSpan ((sortNat timestamps).getD 0 0) ((sortNat timestamps).getD (timestamps.length-1) 0)

def windowWork (cum : List Nat) : Nat :=
  wrappingSub (cum.getD (cum.length-1) 0) (cum.getD 0 0)

/-- The quotient of the work and the time is not zero, and its terms fit 64 bits. -/
def LegacyDetermines (timestamps cum : List Nat) : Prop :=
  windowSpan timestamps ≤ windowWork cum * difficultyTarget ∧
    windowWork cum * difficultyTarget + windowSpan timestamps ≤ 2^64

instance (timestamps cum : List Nat) : Decidable (LegacyDetermines timestamps cum) :=
  inferInstanceAs (Decidable (_ ∧ _))

def lwmaPrevious (cum : List Nat) : Int :=
  toI64 (wrappingSub (cum.getD difficultyWindowV3 0) (cum.getD (difficultyWindowV3-1) 0))

/-- The work over the weighted solve times `l`, before the band. -/
def lwmaQuotient (cum : List Nat) (l : Int) : Int :=
  let total := toI64 (wrappingSub (cum.getD difficultyWindowV3 0) (cum.getD 0 0))
  (toI64 (toI64 (toI64 (total*difficultyTarget) * (difficultyWindowV3+1)) * 99)).tdiv
    (toI64 (100*2*l))

/-- The value in its band of 67 to 150 percent, raised after three fast blocks. -/
def lwmaBanded (raise quotient previous sum3 : Int) : Int :=
  let next := max ((toI64 (previous*67)).tdiv 100) (min quotient ((toI64 (previous*150)).tdiv 100))
  if sum3 < 8*(difficultyTarget : Int) / 10 then max next ((toI64 (previous*raise)).tdiv 100)
  else next

/-- The weighted solve times do not cancel out, and the value they give is not zero. -/
@[mk_iff] structure LwmaDetermines (clampLow clampHigh raise : Int)
    (timestamps cum : List Nat) : Prop where
  weighted : (lwmaSums timestamps clampLow clampHigh difficultyWindowV3).1 ≠ 0
  value : lwmaBanded raise
    (lwmaQuotient cum (lwmaSums timestamps clampLow clampHigh difficultyWindowV3).1)
    (lwmaPrevious cum) (lwmaSums timestamps clampLow clampHigh difficultyWindowV3).2 ≠ 0

/-- The window of the block after `parentIndex` determines its difficulty. -/
def WindowDetermines (parentIndex : Nat) (timestamps cum : List Nat) : Prop :=
  if parentIndex ≤ 1 then True
  else if parentIndex < lwma2DifficultyBlockIndexV2 then LegacyDetermines timestamps cum
  else if parentIndex < lwma2DifficultyBlockIndexV3 then
    LwmaDetermines (-6*difficultyTarget) i64Max 110 timestamps cum
  else LwmaDetermines (-4*difficultyTarget) (6*difficultyTarget) 108 timestamps cum

section

variable {timestamps cum : List Nat} {parentIndex : Nat}

theorem three_le_blockMajorVersionForIndex {index : Nat} (h : 3 ≤ index) :
    3 ≤ blockMajorVersionForIndex index := by
  have h3 : 2 < index := by omega
  unfold blockMajorVersionForIndex upgradeHeights
  by_cases h7 : 1000000 < index
  · simp [h7]
  · by_cases h6 : 600000 < index
    · simp [h7, h6]
    · by_cases h5 : 302400 < index
      · simp [h7, h6, h5]
      · by_cases h4 : 3 < index
        · simp [h7, h6, h5, h4]
        · simp [h7, h6, h5, h4, h3]

theorem timeSpan_pos (first last : Nat) : 0 < timeSpan first last := by
  unfold timeSpan
  split <;> omega

/-- From version 3 on the legacy rule takes the whole window, in one quotient. -/
theorem nextDifficultyLegacy_eq {version : Nat} (hversion : 3 ≤ version)
    (hlen : 2 ≤ timestamps.length) (hle : timestamps.length ≤ 17)
    (hcum : cum.length = timestamps.length) :
    nextDifficultyLegacy version parentIndex timestamps cum =
      some (if windowWork cum * difficultyTarget + windowSpan timestamps ≤ 2^64 then
        windowWork cum * difficultyTarget / windowSpan timestamps else 0) := by
  have hwindow : difficultyWindow version = 17 := if_pos hversion
  have hcut : difficultyCut version = 0 := if_pos hversion
  have hmin : min timestamps.length 17 = timestamps.length := Nat.min_eq_left hle
  have htake : cum.take timestamps.length = cum := take_of_length_le (by omega)
  have hpos := timeSpan_pos ((sortNat timestamps).getD 0 0)
    ((sortNat timestamps).getD (timestamps.length-1) 0)
  unfold nextDifficultyLegacy
  simp only [hwindow, hcut, hmin, zawyDifficultyDifficultyBlockVersion, hversion, if_true]
  rw [if_neg (by omega), if_neg (by omega)]
  simp only [Nat.mul_zero, Nat.sub_zero, hle, if_true, take_length, htake]
  simp only [windowWork, windowSpan, hcum]
  generalize wrappingSub (cum.getD (timestamps.length-1) 0) (cum.getD 0 0) * difficultyTarget =
    product
  split
  · rename_i hover
    rw [if_neg (by omega)]
  · rename_i hfits
    have hsmall : product < 2^64 := by omega
    rw [if_pos (by omega), Nat.mod_eq_of_lt hsmall]

theorem legacy_ne_zero_iff :
    (if windowWork cum * difficultyTarget + windowSpan timestamps ≤ 2^64 then
      windowWork cum * difficultyTarget / windowSpan timestamps else 0) ≠ 0 ↔
      LegacyDetermines timestamps cum := by
  have hpos : 0 < windowSpan timestamps := timeSpan_pos _ _
  unfold LegacyDetermines
  split
  · rename_i hfits
    simp only [hfits, and_true, ne_eq, Nat.div_eq_zero_iff, not_or, not_lt]
    omega
  · rename_i hover
    simp only [hover, and_false, ne_eq, not_true_eq_false]

theorem lwmaCommon_eq (clampLow clampHigh : Int) (timestamps cum : List Nat) :
    lwmaCommon timestamps cum clampLow clampHigh 67 150 =
      let sums := lwmaSums timestamps clampLow clampHigh difficultyWindowV3
      let previous := lwmaPrevious cum
      if sums.1 = 0 then none
      else some (max ((toI64 (previous*67)).tdiv 100)
        (min (lwmaQuotient cum sums.1) ((toI64 (previous*150)).tdiv 100)), previous, sums.2) := by
  unfold lwmaCommon lwmaQuotient lwmaPrevious
  simp only

theorem toI64_bounds (x : Int) : -2^63 ≤ toI64 x ∧ toI64 x < 2^63 := by
  unfold toI64
  have h1 := Int.le_bmod (x := x) (m := 2^64) (by norm_num)
  have h2 := Int.bmod_lt (x := x) (m := 2^64) (by norm_num)
  constructor <;> omega

/-- A value between two bounds that fit an `i64` is zero as a `u64` only if it is zero. -/
theorem toU64_ne_zero_iff {x : Int} (hlow : -2^63 ≤ x) (hhigh : x < 2^63) :
    toU64 x ≠ 0 ↔ x ≠ 0 := by
  unfold toU64
  constructor
  · intro h hx
    exact h (by simp [hx])
  · intro h hx
    omega

theorem tdiv_hundred_bounds (x : Int) : -2^63 ≤ (toI64 x).tdiv 100 ∧ (toI64 x).tdiv 100 < 2^63 := by
  have h := toI64_bounds x
  have habs : ((toI64 x).tdiv 100).natAbs = (toI64 x).natAbs / 100 := Int.natAbs_tdiv _ _
  omega

theorem lwmaBanded_bounds (raise quotient previous sum3 : Int) :
    -2^63 ≤ lwmaBanded raise quotient previous sum3 ∧
      lwmaBanded raise quotient previous sum3 < 2^63 := by
  have hlow := tdiv_hundred_bounds (previous*67)
  have hhigh := tdiv_hundred_bounds (previous*150)
  have hraise := tdiv_hundred_bounds (previous*raise)
  unfold lwmaBanded
  simp only
  split <;> omega

theorem lwma_isSome_iff (clampLow clampHigh raise : Int) (timestamps cum : List Nat) :
    (((lwmaCommon timestamps cum clampLow clampHigh 67 150).map fun (nextD,prevD,sum3) =>
      toU64 (if sum3 < 8*(difficultyTarget : Int) / 10 then
        max nextD ((toI64 (prevD*raise)).tdiv 100) else nextD)).filter (· ≠ 0)).isSome = true ↔
      LwmaDetermines clampLow clampHigh raise timestamps cum := by
  rw [lwmaCommon_eq, lwmaDetermines_iff]
  generalize lwmaSums timestamps clampLow clampHigh difficultyWindowV3 = sums
  generalize lwmaPrevious cum = previous
  simp only
  have hbounds := lwmaBanded_bounds raise (lwmaQuotient cum sums.1) previous sums.2
  by_cases hl : sums.1 = 0
  · simp [hl]
  · rw [if_neg hl, Option.map_some, Option.isSome_filter, Option.any_some, decide_eq_true_iff]
    refine (toU64_ne_zero_iff hbounds.1 hbounds.2).trans ⟨fun h => ⟨hl,h⟩,And.right⟩

theorem difficultyWindowIndexes_length_le (h : parentIndex ≤ 1) :
    (difficultyWindowIndexes parentIndex).length ≤ 1 := by
  simp only [difficultyWindowIndexes, length_range']
  omega

theorem difficultyWindowIndexes_length_legacy (h : 2 ≤ parentIndex)
    (hlt : parentIndex < lwma2DifficultyBlockIndex) :
    2 ≤ (difficultyWindowIndexes parentIndex).length ∧
      (difficultyWindowIndexes parentIndex).length ≤ 17 := by
  have hversion : 3 ≤ blockMajorVersionForIndex (parentIndex+1) :=
    three_le_blockMajorVersionForIndex (by omega)
  have hcount : difficultyBlocksCount (blockMajorVersionForIndex (parentIndex+1)) parentIndex =
      17 := by
    rw [difficultyBlocksCount, if_neg (by omega), difficultyWindow, difficultyLag, if_pos hversion,
      if_pos hversion]
  simp only [difficultyWindowIndexes, length_range', hcount]
  omega

theorem difficultyWindowIndexes_length_lwma (h : lwma2DifficultyBlockIndex ≤ parentIndex) :
    (difficultyWindowIndexes parentIndex).length = difficultyWindowV3 + 1 := by
  have hbig : 100000 ≤ parentIndex := h
  simp only [difficultyWindowIndexes, length_range', difficultyBlocksCount, h, if_true,
    difficultyBlocksCountV3, difficultyWindowV3]
  omega

/-- The next block has a difficulty exactly when its window determines one. -/
theorem nextDifficulty_isSome_iff
    (hlen : timestamps.length = (difficultyWindowIndexes parentIndex).length)
    (hcum : cum.length = timestamps.length) :
    ((nextDifficulty (blockMajorVersionForIndex (parentIndex+1)) parentIndex timestamps cum).filter
      (· ≠ 0)).isSome = true ↔ WindowDetermines parentIndex timestamps cum := by
  have hv2 : lwma2DifficultyBlockIndexV2 = 100000 := rfl
  have hv3 : lwma2DifficultyBlockIndexV3 = 128800 := rfl
  unfold nextDifficulty WindowDetermines
  by_cases hlegacy : parentIndex < 100000
  · rw [if_neg (by omega), if_neg (by omega),
      if_neg (show ¬lwma2DifficultyBlockIndex ≤ parentIndex from Nat.not_le.2 hlegacy)]
    by_cases hfirst : parentIndex ≤ 1
    · have hshort := difficultyWindowIndexes_length_le hfirst
      have hmin : min timestamps.length
          (difficultyWindow (blockMajorVersionForIndex (parentIndex+1))) ≤ 1 := by omega
      rw [if_pos hfirst]
      unfold nextDifficultyLegacy
      simp [hmin]
    · have hwindow := difficultyWindowIndexes_length_legacy (by omega) hlegacy
      have hversion : 3 ≤ blockMajorVersionForIndex (parentIndex+1) :=
        three_le_blockMajorVersionForIndex (by omega)
      rw [if_neg hfirst, if_pos (by omega),
        nextDifficultyLegacy_eq hversion (by omega) (by omega) hcum, Option.isSome_filter,
        Option.any_some, decide_eq_true_iff]
      exact legacy_ne_zero_iff
  · have hwindow := difficultyWindowIndexes_length_lwma (Nat.not_lt.1 hlegacy)
    have hlong : ¬windowsLongEnough timestamps cum = false := by
      simp [windowsLongEnough, hlen, hcum, hwindow]
    rw [if_neg (by omega : ¬parentIndex ≤ 1), if_neg (by omega : ¬parentIndex < _)]
    by_cases hfive : 128800 ≤ parentIndex
    · rw [if_pos (by omega), if_neg (by omega)]
      unfold nextDifficultyV5
      rw [if_neg hlong]
      exact lwma_isSome_iff _ _ 108 timestamps cum
    · rw [if_neg (by omega), if_pos (by omega), if_pos (by omega)]
      unfold nextDifficultyV4
      rw [if_neg hlong]
      exact lwma_isSome_iff _ _ 110 timestamps cum

/-- The weighted solve times of the window, in the clamp of its rule. -/
def lwmaWeighted (parentIndex : Nat) (timestamps : List Nat) : Int :=
  if parentIndex < lwma2DifficultyBlockIndexV3 then
    (lwmaSums timestamps (-6*difficultyTarget) i64Max difficultyWindowV3).1
  else (lwmaSums timestamps (-4*difficultyTarget) (6*difficultyTarget) difficultyWindowV3).1

theorem lwmaBanded_ne_zero (raise quotient sum3 : Int) {previous : Int} (htwo : 2 ≤ previous)
    (hsmall : previous*150 < 2^63) : lwmaBanded raise quotient previous sum3 ≠ 0 := by
  have hlow : toI64 (previous*67) = previous*67 := by
    unfold toI64
    exact Int.bmod_eq_of_le (by omega) (by omega)
  have hband : 1 ≤ (toI64 (previous*67)).tdiv 100 := by
    rw [hlow, Int.tdiv_eq_ediv_of_nonneg (by omega)]
    omega
  unfold lwmaBanded
  simp only
  split <;> omega

/-- A tip of difficulty two or more goes on unless the weighted solve times cancel out. -/
theorem windowDetermines_lwma_iff (hlwma : lwma2DifficultyBlockIndexV2 ≤ parentIndex)
    (htwo : 2 ≤ lwmaPrevious cum) (hsmall : lwmaPrevious cum * 150 < 2^63) :
    WindowDetermines parentIndex timestamps cum ↔ lwmaWeighted parentIndex timestamps ≠ 0 := by
  have hge : 100000 ≤ parentIndex := hlwma
  unfold WindowDetermines lwmaWeighted
  rw [if_neg (by omega), if_neg (Nat.not_lt.2 hlwma)]
  split
  all_goals
    rw [lwmaDetermines_iff]
    exact and_iff_left (lwmaBanded_ne_zero _ _ _ htwo hsmall)

end

/-- The infos the difficulty of the block after `parentIndex` is computed from. -/
def ChainState.difficultyInfos (s : ChainState) (parentIndex : Nat) : List BlockInfo :=
  (difficultyWindowIndexes parentIndex).filterMap s.blockInfo

section

variable {cx : Crypto} {s : ChainState} {chain : MainChain cx} {tip : Nat}

theorem infosInView_mainChain {idxs : List Nat} (hle : ∀ i ∈ idxs, i ≤ tip)
    (hheld : ∀ i ∈ idxs, (s.blockInfo i).isSome = true) :
    s.infosInView (.mainChain tip) idxs = .ok (idxs.filterMap s.blockInfo) ∧
      (idxs.filterMap s.blockInfo).length = idxs.length := by
  induction idxs with
  | nil => exact ⟨rfl,rfl⟩
  | cons i idxs ih =>
    obtain ⟨hrest,hlen⟩ := ih (fun j hj => hle j (mem_cons_of_mem _ hj))
      (fun j hj => hheld j (mem_cons_of_mem _ hj))
    obtain ⟨info,hinfo⟩ := Option.isSome_iff_exists.1 (hheld i mem_cons_self)
    have hview : s.infoInView (.mainChain tip) i = some info := by
      have hbelow : ¬(ChainView.mainChain tip).forkIndex < i :=
        Nat.not_lt.2 (hle i mem_cons_self)
      unfold ChainState.infoInView
      rw [if_neg hbelow]
      exact hinfo
    rw [filterMap_cons_some hinfo]
    constructor
    · simp [ChainState.infosInView, hview, hrest, orRefuse, bind, Except.bind, pure, Except.pure]
    · rw [length_cons, length_cons, hlen]

theorem HoldsTables.difficultyForNextBlock_eq (h : HoldsTables s chain)
    (htip : s.tip = some tip) (hsimnet : s.cfg.simnet = false) :
    s.difficultyForNextBlock (.mainChain tip) tip =
        .ok (difficultyForNextBlockFrom tip (s.difficultyInfos tip)) ∧
      (s.difficultyInfos tip).length = (difficultyWindowIndexes tip).length := by
  have hlength : chain.length = tip + 1 := by
    refine MainChain.tip_eq_some_iff.1 ?_
    rw [← h.tip, htip]
  have hle : ∀ i ∈ difficultyWindowIndexes tip, i ≤ tip := by
    intro i hi
    have := mem_range'_1.1 hi
    omega
  obtain ⟨hinfos,hlen⟩ := infosInView_mainChain hle (by
    intro i hi
    have hlt : i < chain.length := by have := hle i hi; omega
    rw [h.blockInfo_eq, getElem?_eq_getElem hlt]
    rfl)
  refine ⟨?_,hlen⟩
  unfold ChainState.difficultyForNextBlock
  rw [hsimnet, hinfos]
  rfl

end

/-- After every run the next block has a difficulty of one or more exactly when the
last blocks determine one; from 100,000 on, above a tip of difficulty two or more,
when their weighted solve times do not cancel out. -/
theorem difficultyForNextBlock_isSome_iff {cx : Crypto} {cfg : Config} {checkpoints : Checkpoints}
    {clock : Nat} {s₀ : ChainState} {offers : List (Nat × RawBlock)}
    (hopen : ChainState.openOrGenesis cx cfg checkpoints clock = .ok ⟨⟩ s₀)
    (hsimnet : cfg.simnet = false) (hU : UniqueIds cx (blocksOf cx (offers.map Prod.snd))) :
    let s := runBlocks cx offers s₀
    ∃ tip d?, s.tip = some tip ∧ s.difficultyForNextBlock (.mainChain tip) tip = .ok d? ∧
      (∀ d, d? = some d → 1 ≤ d) ∧
      (d?.isSome = true ↔ WindowDetermines tip
        ((s.difficultyInfos tip).map BlockInfo.timestamp)
        ((s.difficultyInfos tip).map BlockInfo.cumulativeDifficulty)) ∧
      (lwma2DifficultyBlockIndexV2 ≤ tip →
        2 ≤ lwmaPrevious ((s.difficultyInfos tip).map BlockInfo.cumulativeDifficulty) →
        lwmaPrevious ((s.difficultyInfos tip).map BlockInfo.cumulativeDifficulty) * 150 < 2^63 →
        (d?.isSome = true ↔
          lwmaWeighted tip ((s.difficultyInfos tip).map BlockInfo.timestamp) ≠ 0)) := by
  intro s
  obtain ⟨chain,hkept⟩ := runBlocks_sound hopen hU
    (fun offer ho => List.mem_map_of_mem (f := Prod.snd) ho)
  have hpos := List.length_pos_iff.2 hkept.sound.nonempty
  have htip : s.tip = some (chain.length-1) := by
    rw [hkept.sound.holds.tip]
    exact MainChain.tip_eq_some_iff.2 (by omega)
  obtain ⟨heq,hlen⟩ := hkept.sound.holds.toHoldsTables.difficultyForNextBlock_eq htip
    (by rw [hkept.inv.cfg, hsimnet])
  have hiff : (difficultyForNextBlockFrom (chain.length-1)
      (s.difficultyInfos (chain.length-1))).isSome = true ↔ WindowDetermines (chain.length-1)
        ((s.difficultyInfos (chain.length-1)).map BlockInfo.timestamp)
        ((s.difficultyInfos (chain.length-1)).map BlockInfo.cumulativeDifficulty) :=
    nextDifficulty_isSome_iff (by rw [List.length_map, hlen])
      (by rw [List.length_map, List.length_map])
  refine ⟨_,_,htip,heq,?_,hiff,?_⟩
  · intro d hd
    have hne : d ≠ 0 := by simpa using (Option.filter_eq_some_iff.1 hd).2
    omega
  · intro hlwma htwo hsmall
    exact hiff.trans (windowDetermines_lwma_iff hlwma htwo hsmall)

def sampleSlow : List (Nat × RawBlock) := sampleOffers 1000 (sampleChain [(60,[],0),(180,[],0)])

theorem difficultyForNextBlock_isSome_iff_sample :
    let s := runBlocks sampleCrypto sampleSlow (sampleNode {} .none 1000)
    s.tip = some 2 ∧ s.difficultyForNextBlock (.mainChain 2) 2 = .ok none ∧
      ¬ WindowDetermines 2 ((s.difficultyInfos 2).map BlockInfo.timestamp)
        ((s.difficultyInfos 2).map BlockInfo.cumulativeDifficulty) := by
  obtain ⟨tip,d?,htip,hd,_,hiff,_⟩ := difficultyForNextBlock_isSome_iff
    (sampleNode_open {} .none 1000) rfl (by decide +kernel :
      UniqueIds sampleCrypto (blocksOf sampleCrypto (sampleSlow.map Prod.snd)))
  have htwo : (runBlocks sampleCrypto sampleSlow (sampleNode {} .none 1000)).tip = some 2 ∧
      ((runBlocks sampleCrypto sampleSlow (sampleNode {} .none 1000)).difficultyForNextBlock
        (.mainChain 2) 2).toOption = some none := by decide +kernel
  obtain rfl : 2 = tip := Option.some.inj (htwo.1.symm.trans htip)
  obtain rfl : d? = none := by
    have hnone := htwo.2
    rw [hd] at hnone
    exact Option.some.inj hnone
  exact ⟨htip,hd,fun h => Bool.false_ne_true (hiff.2 h)⟩

/-- The second block took longer than the target, so the third has no difficulty. -/
theorem difficultyForNextBlock_none :
    let s := runBlocks sampleCrypto sampleSlow (sampleNode {} .none 1000)
    s.cfg.simnet = false ∧
      UniqueIds sampleCrypto (blocksOf sampleCrypto (sampleSlow.map Prod.snd)) ∧
      s.tip = some 2 ∧ (s.difficultyForNextBlock (.mainChain 2) 2).toOption = some none := by
  decide +kernel

end Wrkz
