import Wrkz.Chain.Agree
import Wrkz.Chain.Sample

/-!
What `add_block` leaves alone of the main chain. The checkpoints are only read at
the index a block claims, so a branch below the last checkpoint is followed as
soon as it outweighs the main chain, also before it reaches the checkpoint.
-/

set_option autoImplicit false

namespace Wrkz

open Library ChainState

namespace ChainState

def mainHash (s : ChainState) (i : Nat) : Option Hash := (s.blockInfo i).map BlockInfo.blockHash

/-- The branch a block off the tip would join: its parent's index, the fork and
the infos above the fork. -/
def branchUnder (s : ChainState) (block : BlockTemplate) : Option (Nat × Nat × List BlockInfo) :=
  match s.locateParent block.previousBlockHash with
  | .ok (.mainDepth prev) => some (prev,prev,[])
  | .ok (.alternative parent prev) =>
    match s.branchInfos (some parent) prev with
    | .ok (fork,infos) => some (prev,fork,infos)
    | .error _ => none
  | _ => none

def branchWeight (s : ChainState) (prev fork : Nat) (infos : List BlockInfo) : Option Nat :=
  match s.infoInView (.withBranch fork infos) prev,
      s.difficultyForNextBlock (.withBranch fork infos) prev with
  | some parent,.ok (some difficulty) =>
    some (wrappingAdd parent.cumulativeDifficulty difficulty)
  | _,_ => none

/-- The block would make a branch that leaves the main chain below `c` the heavier
one. -/
def outweighsBelow (s : ChainState) (c : Nat) (raw : RawBlock) : Bool :=
  match BlockTemplate.fromBytes raw.block with
  | .error _ => false
  | .ok block =>
    match s.branchUnder block with
    | none => false
    | some (prev,fork,infos) =>
      match s.branchWeight prev fork infos with
      | none => false
      | some weight => decide (fork < c) && decide (s.mainCumulative < weight)

end ChainState

/-- No offer makes a branch from below `c` the heavier one when it comes. -/
def NeverOutweighed (cx : Crypto) (c : Nat) : List (Nat × RawBlock) → ChainState → Prop
  | [],_ => True
  | (now,raw) :: rest,s =>
    (s.atClock now).outweighsBelow c raw = false ∧
      NeverOutweighed cx c rest ((Call.addBlock now raw).run cx s)

instance NeverOutweighed.decidable (cx : Crypto) (c : Nat) :
    (offers : List (Nat × RawBlock)) → (s : ChainState) → Decidable (NeverOutweighed cx c offers s)
  | [],_ => .isTrue trivial
  | (_,_) :: rest,_ =>
    have := NeverOutweighed.decidable cx c rest
    inferInstanceAs (Decidable (_ ∧ _))

section

variable {cx : Crypto} {U : Set RawBlock} {s : ChainState} {chain : MainChain cx}
  {raw : RawBlock} {block : BlockTemplate} {hash : Hash} {prev d fork c : Nat}
  {parentAlt : Option Hash} {infos : List BlockInfo} {info : BlockInfo}

section

variable (h : PassedAlternative cx s raw block hash prev parentAlt fork infos info d)
include h

theorem PassedAlternative.branchUnder_eq : s.branchUnder block = some (prev,fork,infos) := by
  have hlocated := h.located
  have hinfos := h.branchInfos
  unfold branchUnder
  cases parentAlt with
  | none =>
    cases hinfos
    rw [hlocated]
    rfl
  | some parent =>
    rw [hlocated]
    simp only [Parent.ofBranch, hinfos]

theorem PassedAlternative.branchWeight_eq :
    s.branchWeight prev fork infos = some info.cumulativeDifficulty := by
  obtain ⟨head,fee,parent,reward,info',hhead,_,hreward,_,hinfo,heq⟩ :=
    checkAlternative_ok_iff.1 h.passed
  cases heq
  obtain ⟨_,_,_,difficulty,_,_,_,_,hdifficulty,_,rfl⟩ := checkHead_ok_iff.1 hhead
  obtain ⟨hparent,_⟩ := checkReward_ok_iff.1 hreward
  obtain ⟨_,rfl⟩ := nextInfo_ok_iff.1 hinfo
  simp only [branchWeight, hparent, hdifficulty]

/-- A passed block that makes its branch heavier leaves the main chain at `c` or
above, unless it is one that outweighs from below. -/
theorem PassedAlternative.le_fork (hheavier : s.mainCumulative < info.cumulativeDifficulty)
    (hnever : s.outweighsBelow c raw = false) : c ≤ fork := by
  unfold outweighsBelow at hnever
  simp only [h.presented.parsed, h.branchUnder_eq, h.branchWeight_eq, hheavier, decide_true,
    Bool.and_true, decide_eq_false_iff_not] at hnever
  omega

end

theorem ChainState.cleared_branchUnder (s : ChainState) (block : BlockTemplate) :
    s.cleared.branchUnder block = s.branchUnder block := by
  have hbranch : ∀ h, s.cleared.branchHashes h = s.branchHashes h :=
    branchHashes_congr rfl (fun _ => rfl)
  have hlocated : s.cleared.locateParent block.previousBlockHash =
    s.locateParent block.previousBlockHash := rfl
  unfold branchUnder branchInfos
  simp only [hlocated, hbranch]
  rfl

theorem ChainState.cleared_branchWeight (s : ChainState) (prev fork : Nat)
    (infos : List BlockInfo) :
    s.cleared.branchWeight prev fork infos = s.branchWeight prev fork infos := by
  have hagree : Agree s s.cleared (.withBranch fork infos) (.withBranch fork infos) prev :=
    ⟨rfl,rfl,rfl,rfl,le_rfl,fun _ _ => rfl⟩
  unfold branchWeight
  rw [hagree.difficultyForNextBlock_eq, hagree.infos prev le_rfl]

theorem ChainState.cleared_outweighsBelow (s : ChainState) (c : Nat) (raw : RawBlock) :
    s.cleared.outweighsBelow c raw = s.outweighsBelow c raw := by
  unfold outweighsBelow
  simp only [cleared_branchUnder, cleared_branchWeight]
  rfl

theorem addBlock_final (hU : UniqueIds cx U) (h : Kept U (fun _ _ => True) s chain)
    (hknown : raw ∈ U) (hc : c < chain.length) (hnever : s.outweighsBelow c raw = false) :
    ∃ chain', Kept U (fun _ _ => True) (finalState (addBlock cx raw s)) chain' ∧
      c < chain'.length ∧ chain'.take (c+1) = chain.take (c+1) := by
  obtain ⟨chain',hkept,hstep⟩ := addBlock_step hU stable_true h hknown
  refine ⟨chain',hkept,?_⟩
  rcases hstep with rfl | ⟨b,rfl⟩ |
    ⟨p,q,q',block,hash,prev,parentAlt,fork,infos,info,d,rfl,rfl,hpass,hheavier,hlen⟩
  · exact ⟨hc,rfl⟩
  · rw [List.take_append_of_le_length (by omega)]
    exact ⟨by simp; omega,rfl⟩
  · have hle := hpass.le_fork hheavier ((cleared_outweighsBelow s c raw).trans hnever)
    rw [List.take_append_of_le_length (by omega), List.take_append_of_le_length (by omega)]
    exact ⟨by simp; omega,rfl⟩

theorem runBlocks_final (hU : UniqueIds cx U) {offers : List (Nat × RawBlock)}
    (hknown : ∀ offer ∈ offers, offer.2 ∈ U) (h : Kept U (fun _ _ => True) s chain)
    (hc : c < chain.length) (hnever : NeverOutweighed cx c offers s) :
    ∃ chain', Kept U (fun _ _ => True) (runBlocks cx offers s) chain' ∧
      chain'.take (c+1) = chain.take (c+1) := by
  induction offers generalizing s chain with
  | nil => exact ⟨chain,h,rfl⟩
  | cons offer offers ih =>
    obtain ⟨now,raw⟩ := offer
    obtain ⟨hfirst,hrest⟩ := hnever
    obtain ⟨chain₁,hkept₁,hlen₁,htake₁⟩ := addBlock_final hU (h.atClock now trivial)
      (hknown _ List.mem_cons_self) hc hfirst
    obtain ⟨chain₂,hkept₂,htake₂⟩ := ih (fun o ho => hknown o (List.mem_cons_of_mem _ ho)) hkept₁
      hlen₁ hrest
    exact ⟨chain₂,hkept₂,htake₂.trans htake₁⟩

theorem HoldsChain.mainHash_eq (h : HoldsChain s chain) (i : Nat) :
    s.mainHash i = (chain[i]?).map fun b => b.info.blockHash := by
  unfold mainHash
  rw [h.blockInfo_eq, Option.map_map]
  rfl

end

/-- Once the tip is at `c` or above, the ids up to `c` stay for as long as no
block is offered that makes a branch from below `c` outweigh the main chain. -/
theorem mainHash_final {cx : Crypto} {cfg : Config} {checkpoints : Checkpoints} {clock c tip : Nat}
    {s₀ : ChainState} (hopen : openOrGenesis cx cfg checkpoints clock = .ok ⟨⟩ s₀)
    {before after : List (Nat × RawBlock)}
    (hU : UniqueIds cx (blocksOf cx ((before ++ after).map Prod.snd)))
    (htip : (runBlocks cx before s₀).tip = some tip) (hc : c ≤ tip)
    (hnever : NeverOutweighed cx c after (runBlocks cx before s₀)) {i : Nat} (hi : i ≤ c) :
    (runBlocks cx (before ++ after) s₀).mainHash i = (runBlocks cx before s₀).mainHash i := by
  have hoffered : ∀ offer ∈ before ++ after, offer.2 ∈ (before ++ after).map Prod.snd :=
    fun _ ho => List.mem_map_of_mem ho
  obtain ⟨chain₁,hkept₁⟩ := runBlocks_sound hopen hU
    (fun o ho => hoffered o (List.mem_append_left _ ho))
  have hlen : c < chain₁.length := by
    rw [hkept₁.sound.holds.tip] at htip
    have := MainChain.tip_eq_some_iff.1 htip
    omega
  obtain ⟨chain₂,hkept₂,htake⟩ := runBlocks_final hU
    (fun o ho => .inl (hoffered o (List.mem_append_right _ ho)))
    ⟨hkept₁.sound,trivial⟩ hlen hnever
  rw [runBlocks_append, hkept₁.sound.holds.mainHash_eq, hkept₂.sound.holds.mainHash_eq,
    ← List.getElem?_take_of_lt (Nat.lt_succ_of_le hi), htake,
    List.getElem?_take_of_lt (Nat.lt_succ_of_le hi)]

def sampleMinutes : List (BlockTemplate × List Transaction) :=
  sampleChain [(60,[],0),(120,[],0),(180,[],0),(240,[],0)]

/-- The timestamps of this branch stand still, so its third block has difficulty 60. -/
def sampleStill : List (BlockTemplate × List Transaction) :=
  sampleChain [(61,[],0),(61,[],0),(61,[],0)]

def sampleMain : List (Nat × RawBlock) := sampleOffers 1000 sampleMinutes

def sampleHeavyBranch : List (Nat × RawBlock) := sampleOffers 1000 sampleStill

/-- Only the last block of `sampleMinutes` is a checkpoint. -/
def sampleCheckpoints : Checkpoints :=
  ⟨sampleMinutes.getLast?.toList.map fun b => (4,sampleId b.1),2^64-1⟩

/-- The branch forks at genesis and is followed at index 3, below the checkpoint
that the main chain had reached. -/
theorem mainHash_not_final :
    let s₀ := sampleNode {} sampleCheckpoints 1000
    let s := runBlocks sampleCrypto sampleMain s₀
    let t := runBlocks sampleCrypto (sampleMain ++ sampleHeavyBranch) s₀
    openOrGenesis sampleCrypto {} sampleCheckpoints 1000 = .ok ⟨⟩ s₀ ∧
      UniqueIds sampleCrypto
        (blocksOf sampleCrypto ((sampleMain ++ sampleHeavyBranch).map Prod.snd)) ∧
      sampleCheckpoints.topIndex = some 4 ∧ s.tip = some 4 ∧ t.tip = some 3 ∧
      (∀ i ≤ 4, 1 ≤ i → t.mainHash i ≠ s.mainHash i) :=
  ⟨sampleNode_open {} sampleCheckpoints 1000,by decide +kernel⟩

/-- Without the third block of the branch the ids stay. -/
theorem mainHash_final_sample :
    let s₀ := sampleNode {} sampleCheckpoints 1000
    let after := sampleHeavyBranch.take 2
    (runBlocks sampleCrypto (sampleMain ++ after) s₀).mainHash 4 =
      (runBlocks sampleCrypto sampleMain s₀).mainHash 4 :=
  mainHash_final (c := 4) (sampleNode_open {} sampleCheckpoints 1000) (by decide +kernel)
    (by decide +kernel : _ = some 4) le_rfl (by decide +kernel) le_rfl

end Wrkz
