import Wrkz.Chain.Selection

/-!
The alternative blocks after a call: each stands on a held block one place below
it, none is on the main chain, and the way down ends on the main chain. A call
that accepts its block leaves them within the limits, or leaves the branch it
extended alone.
-/

set_option autoImplicit false

namespace Wrkz

open Library

/-- The block reached by `n` steps down from a branch block. -/
def ChainState.ancestor (s : ChainState) : Nat → Hash → Hash
  | 0, x => x
  | n+1, x =>
    match s.altBlocks.lookup x with
    | some alt => s.ancestor n alt.prevHash
    | none => x

structure WellRooted (s : ChainState) : Prop where
  parent : ∀ x alt, s.altBlocks.lookup x = some alt → ∃ below, alt.index = below + 1 ∧
    ((∃ parent, s.altBlocks.lookup alt.prevHash = some parent ∧ parent.index = below) ∨
      s.blockIndexByHash alt.prevHash = some below)
  notMain : ∀ x alt, s.altBlocks.lookup x = some alt → s.blockIndexByHash x = none
  reaches : ∀ x alt, s.altBlocks.lookup x = some alt →
    ∃ n, (s.blockIndexByHash (s.ancestor n x)).isSome = true

/-- Few enough leaves and blocks, or no leaf but `hash`. -/
def AltBlocks.WithinLimits (alts : AltBlocks) (hash : Hash) : Prop :=
  (alts.leaves.length ≤ cryptonoteMaxAltChainCount ∧
    AltBlocks.length alts ≤ cryptonoteMaxAltBlockCount) ∨ ∀ leaf ∈ alts.leaves, leaf = hash

section

variable {cx : Crypto} {U : Set RawBlock} {I : ChainState → MainChain cx → Prop} {cfg : Config}
  {checkpoints : Checkpoints} {now : Nat} {s t : ChainState} {chain : MainChain cx}
  {raw : RawBlock} {infos : List BlockInfo} {x : Hash} {a : AltBlock}

theorem Lineage.reaches (hholds : HoldsTables s chain) (h : Lineage s.altBlocks chain x infos) :
    ∃ n, (s.blockIndexByHash (s.ancestor n x)).isSome = true := by
  induction h with
  | @main i b hb =>
    have hindex := hholds.blockIndexByHash_iff.2 ⟨b,hb,rfl⟩
    exact ⟨0,by simp [ChainState.ancestor, hindex]⟩
  | @alt y c infos hc _ ih =>
    obtain ⟨n,hn⟩ := ih
    exact ⟨n+1,by simpa [ChainState.ancestor, hc] using hn⟩

theorem Sound.parent_below (hU : UniqueIds cx U) (hsound : Sound U s chain)
    (ha : s.altBlocks.lookup x = some a) (h : Lineage s.altBlocks chain a.prevHash infos) :
    ∃ below, a.index = below + 1 ∧
      ((∃ parent, s.altBlocks.lookup a.prevHash = some parent ∧ parent.index = below) ∨
        s.blockIndexByHash a.prevHash = some below) := by
  obtain ⟨t,pt,hsnd⟩ := hsound.alts x a ha
  obtain ⟨below,hheight,hindex⟩ := hsnd.parentHeight
  refine ⟨below,hindex,?_⟩
  have hparent := hsnd.parentHashed
  generalize a.prevHash = y at h hparent ⊢
  cases h with
  | @main i b hb =>
    have hblock : pt = b.block := hU pt hsnd.parentKnown b.block
      (hsound.linked.template_mem b (List.mem_of_getElem? hb)) _ hparent b.hashed
    have hi := hsound.linked.height i b hb
    rw [← hblock, hheight] at hi
    cases hi
    exact .inr (hsound.holds.toHoldsTables.blockIndexByHash_iff.2 ⟨b,hb,rfl⟩)
  | @alt _ c _ hc _ =>
    obtain ⟨t',_,hsnd'⟩ := hsound.alts y c hc
    have hblock : pt = t' := hU pt hsnd.parentKnown t' ⟨_,hsnd'.known,hsnd'.parsed⟩ _ hparent
      hsnd'.hashed
    have hi := hsnd'.height
    rw [← hblock, hheight] at hi
    cases hi
    exact .inl ⟨c,hc,rfl⟩

theorem Grove.wellRooted (hU : UniqueIds cx U) (h : Grove cfg checkpoints now U s chain) :
    WellRooted s where
  parent x a ha := by
    obtain ⟨infos,hlineage,_⟩ := h.rooted.passed x a ha
    exact h.kept.sound.parent_below hU ha hlineage
  notMain x a ha := by
    refine Option.eq_none_iff_forall_ne_some.2 fun i hi => ?_
    obtain ⟨b,hb,heq⟩ := h.kept.sound.holds.toHoldsTables.blockIndexByHash_iff.1 hi
    exact h.rooted.apart x a ha b (List.mem_of_getElem? hb) heq
  reaches x a ha := by
    obtain ⟨infos,hlineage,_⟩ := h.rooted.passed x a ha
    exact (Lineage.alt ha hlineage).reaches h.kept.sound.holds.toHoldsTables

theorem pruned_withinLimits {tip : Nat} (htip : s.tip = some tip) {exclude : Option Hash}
    (hexclude : ∀ leaf, some leaf = exclude → leaf = x) :
    (s.pruned exclude).altBlocks.WithinLimits x := by
  have heq : (s.pruned exclude).altBlocks = s.altBlocks.prune tip exclude := by
    unfold ChainState.pruned
    rw [htip]
  rw [heq]
  exact (AltBlocks.prune_limits tip exclude s.altBlocks).imp_right
    fun hall leaf hleaf => hexclude leaf (hall leaf hleaf)

theorem Kept.tip_isSome (h : Kept U I s chain) : ∃ tip, s.tip = some tip := by
  have hlen := List.length_pos_iff.2 h.sound.nonempty
  refine ⟨chain.length-1,?_⟩
  rw [h.sound.holds.tip]
  exact MainChain.tip_eq_some_iff.2 (by omega)

theorem AddAccepted.withinLimits {outcome : AddOutcome} {exclude : Option Hash}
    (h : AddAccepted cx U I s chain raw outcome exclude t) :
    (t.pruned exclude).altBlocks.WithinLimits outcome.hash := by
  cases h with
  | main prev d b hpres hraw hprev hparent hcheck hkept =>
    obtain ⟨tip,htip⟩ := hkept.tip_isSome
    exact pruned_withinLimits htip (by simp)
  | alternative block hash prev d parentAlt fork infos info hpass hle hkept =>
    obtain ⟨tip,htip⟩ := hkept.tip_isSome
    exact pruned_withinLimits htip (by simp)
  | switched block hash prev d parentAlt fork infos info hpass hlt hkept t p q bs branch hchain
      hswitched =>
    obtain ⟨tip,htip⟩ := hswitched.kept.tip_isSome
    exact pruned_withinLimits htip (by simp)

end

/-- After every call of `add_block` the branches are well rooted, and within the
limits when the call accepted its block. -/
theorem addBlock_wellRooted {cx : Crypto} {cfg : Config} {checkpoints : Checkpoints}
    {clock now : Nat} {s₀ : ChainState} {calls : List Call} {raw : RawBlock}
    (hopen : ChainState.openOrGenesis cx cfg checkpoints clock = .ok ⟨⟩ s₀)
    (hU : UniqueIds cx (blocksOf cx (raw :: calls.filterMap Call.raw?)))
    (hT : UniqueTxIds cx (blocksOf cx (raw :: calls.filterMap Call.raw?)))
    (hfree : ReplayFree checkpoints (blocksOf cx (raw :: calls.filterMap Call.raw?)))
    (hclock : (clock :: (calls.map Call.now ++ [now])).Pairwise (· ≤ ·))
    (hundo : AllAlong cx ChainState.CanUndoSwitch calls s₀) :
    WellRooted (finalState (ChainState.addBlock cx raw ((runCalls cx calls s₀).atClock now))) ∧
      ∀ outcome t, ChainState.addBlock cx raw ((runCalls cx calls s₀).atClock now) =
        .ok outcome t → t.altBlocks.WithinLimits outcome.hash := by
  obtain ⟨g,hg,hs⟩ := openOrGenesis_eq hopen
  rw [← List.cons_append, List.pairwise_append] at hclock
  have hknown : ∀ c ∈ calls, ∀ r, c.raw? = some r →
      r ∈ blocksOf cx (raw :: calls.filterMap Call.raw?) :=
    fun c hc r hr => .inl (List.mem_cons_of_mem _ (List.mem_filterMap.2 ⟨c,hc,hr⟩))
  obtain ⟨chain,last,hlast,hgrove⟩ := runCalls_grove hU hT hfree hknown hclock.1 hundo
    (genesis_grove hg cfg checkpoints clock (raw :: calls.filterMap Call.raw?) hs)
  have hnow := hgrove.atClock (hclock.2.2 last hlast now (by simp))
  have hundo' : ((runCalls cx calls s₀).atClock now).CanUndoSwitch := hundo.last
  obtain ⟨_,hnext,_⟩ := hnow.addBlock hU hT hfree hundo' (.inl List.mem_cons_self)
  refine ⟨hnext.wellRooted hU,?_⟩
  intro outcome t hok
  have hspec := addBlock_spec hU (stable_settled cfg now hT hfree) hnow.kept
    (.inl List.mem_cons_self)
  obtain ⟨exclude,u,_,haccepted,rfl⟩ := hspec.of_ok_of_eq hok
  exact haccepted.withinLimits

/-- The branch that stands still takes over; two blocks are demoted. -/
theorem addBlock_wellRooted_sample :
    let s := runCalls sampleCrypto sampleBeforeTakeover (sampleNode {} .none 1000)
    let t := finalState (ChainState.addBlock sampleCrypto sampleHeavy (s.atClock 1000))
    t.altBlocks.length = 2 ∧ WellRooted t := by
  intro s t
  refine ⟨by decide +kernel,?_⟩
  have hstores : AllAlong sampleCrypto (fun s => s.cfg.storeRawBlocks = true ∧
      s.cfg.pruneDepth = none) sampleBeforeTakeover (sampleNode {} .none 1000) := by
    decide +kernel
  exact (addBlock_wellRooted (sampleNode_open {} .none 1000) (by decide +kernel)
    (by decide +kernel) (.of_noZone _ Checkpoints.none_isInCheckpointZone) (by decide +kernel)
    fun before hbefore => .inl (hstores before hbefore)).1

/-- A branch block on the first late block, offered before the clock goes back. -/
def sampleLateBranch : List (BlockTemplate × List Transaction) :=
  match sampleLate with
  | [] => []
  | b :: _ => sampleBranch 2 (sampleGenesisCoins + sampleReward sampleGenesisCoins) (sampleId b.1)
      [(9070,[],0)]

def sampleBeforeLost : List Call :=
  (sampleOffers 10000 (sampleLate ++ sampleLateBranch) ++
    sampleOffers 1000 (sampleBadBranch.take 2)).map fun offer => Call.addBlock offer.1 offer.2

/-- The clock goes back and a failed switch cannot put the old tail back: the block
on its first block loses its parent. -/
theorem addBlock_not_wellRooted :
    let t := runCalls sampleCrypto (sampleBeforeLost ++ [.addBlock 1000 sampleBad])
      (sampleNode {} .none 1000)
    UniqueIds sampleCrypto (blocksOf sampleCrypto
      (sampleBad :: sampleBeforeLost.filterMap Call.raw?)) ∧
    UniqueTxIds sampleCrypto (blocksOf sampleCrypto
      (sampleBad :: sampleBeforeLost.filterMap Call.raw?)) ∧
    ∃ x alt, t.altBlocks.lookup x = some alt ∧ t.altBlocks.lookup alt.prevHash = none ∧
      t.blockIndexByHash alt.prevHash = none := by
  intro t
  refine ⟨by decide +kernel,by decide +kernel,
    (sampleLateBranch.head?.map fun b => sampleId b.1).getD (ByteVec.zero 32),?_⟩
  have hheld : (t.altBlocks.lookup
      ((sampleLateBranch.head?.map fun b => sampleId b.1).getD (ByteVec.zero 32))).any
      (fun alt => decide (t.altBlocks.lookup alt.prevHash = none ∧
        t.blockIndexByHash alt.prevHash = none)) = true := by decide +kernel
  obtain ⟨alt,halt,hlost⟩ := (Option.any_eq_true _ _).1 hheld
  exact ⟨alt,halt,of_decide_eq_true hlost⟩

end Wrkz
