import Wrkz.Chain.Attempts
import Wrkz.Chain.Inverse

/-!
The arithmetic of the block reward. `get_block_reward` adds the penalized fee to the
penalized reward in 64 bits and narrows the change of the emission to a signed 64-bit
integer, with no check of its own: whether the values fit depends on the fees its
callers bring. Fees of at most `2^63` always fit.
-/

set_option autoImplicit false

namespace Wrkz

open Library

/-- The arguments of a call of `get_block_reward`. -/
structure RewardCall where
  blockMajorVersion : Nat
  medianSize : Nat
  currentBlockSize : Nat
  alreadyGeneratedCoins : Nat
  fee : Nat
  blockHeight : Nat
  deriving DecidableEq, Repr

namespace RewardCall

variable (c : RewardCall)

def run : Option Reward :=
  getBlockReward c.blockMajorVersion c.medianSize c.currentBlockSize c.alreadyGeneratedCoins c.fee
    c.blockHeight

def median : Nat := max c.medianSize (fullRewardZone c.blockMajorVersion)

def penalizedBaseReward : Nat :=
  getPenalizedAmount (baseReward c.alreadyGeneratedCoins c.blockHeight) c.median c.currentBlockSize

def penalizedFee : Nat :=
  if 2 ≤ c.blockMajorVersion then getPenalizedAmount c.fee c.median c.currentBlockSize else c.fee

def emissionChange : Int := c.penalizedBaseReward - ((c.fee : Int) - c.penalizedFee)

/-- A call that gets past the size check neither overflows nor narrows. -/
def InRange : Prop :=
  c.currentBlockSize ≤ 2*c.median →
    c.penalizedBaseReward + c.penalizedFee < 2^64 ∧
      -2^63 ≤ c.emissionChange ∧ c.emissionChange < 2^63

instance : Decidable c.InRange := inferInstanceAs (Decidable (_ → _))

variable {c}

theorem run_eq : c.run = if 2*c.median < c.currentBlockSize then none else
    some ⟨(c.penalizedBaseReward + c.penalizedFee) % 2^64,toI64 c.emissionChange⟩ := rfl

/-- In range the reward and the change are the exact ones. -/
theorem run_of_inRange (hrange : c.InRange) (hsize : c.currentBlockSize ≤ 2*c.median) :
    c.run = some ⟨c.penalizedBaseReward + c.penalizedFee,c.emissionChange⟩ := by
  obtain ⟨hsum,hlow,hhigh⟩ := hrange hsize
  rw [run_eq, if_neg (by omega), Nat.mod_eq_of_lt hsum]
  unfold toI64
  rw [Int.bmod_eq_of_le (by omega) (by omega)]

theorem baseReward_le (coins height : Nat) : baseReward coins height ≤ moneySupply := by
  unfold baseReward
  split
  · decide
  · rw [Nat.shiftRight_eq_div_pow]
    exact (Nat.div_le_self _ _).trans (Nat.sub_le _ _)

theorem getPenalizedAmount_le {amount median size : Nat}
    (hsize : size ≤ 2*median) : getPenalizedAmount amount median size ≤ amount := by
  unfold getPenalizedAmount
  split
  · exact Nat.zero_le _
  · split
    · exact le_refl _
    · -- a square is the largest rectangle of its girth
      have hfactor : size*(2*median - size) ≤ median*median := by
        obtain ⟨k,hk⟩ := Nat.exists_eq_add_of_le hsize
        rw [hk, Nat.add_sub_cancel_left]
        nlinarith [sq_nonneg ((size : Int) - k), hk]
      have hproduct : amount*(size*(2*median - size)) ≤ amount*(median*median) :=
        Nat.mul_le_mul_left amount hfactor
      have hdiv : amount*(size*(2*median - size)) / median / median ≤ amount := by
        rw [Nat.div_div_eq_div_mul]
        exact Nat.div_le_of_le_mul (by rw [Nat.mul_comm (median*median)]; exact hproduct)
      exact (Nat.mod_le _ _).trans hdiv

theorem penalizedFee_le (hsize : c.currentBlockSize ≤ 2*c.median) : c.penalizedFee ≤ c.fee := by
  unfold penalizedFee
  split
  · exact getPenalizedAmount_le hsize
  · exact le_refl _

theorem penalizedBaseReward_le (hsize : c.currentBlockSize ≤ 2*c.median) :
    c.penalizedBaseReward ≤ moneySupply :=
  (getPenalizedAmount_le hsize).trans (baseReward_le _ _)

theorem inRange_of_fee_le (hfee : c.fee ≤ 2^63) : c.InRange := by
  intro hsize
  have hbase := penalizedBaseReward_le hsize
  have hpaid := penalizedFee_le hsize
  unfold moneySupply at hbase
  unfold emissionChange
  omega

/-- Of a block within the median, whose fee is not penalized, nothing else fits. -/
theorem inRange_iff_of_fits (hsize : c.currentBlockSize ≤ c.median) :
    c.InRange ↔ baseReward c.alreadyGeneratedCoins c.blockHeight + c.fee < 2^64 := by
  have hfull (amount : Nat) : getPenalizedAmount amount c.median c.currentBlockSize = amount := by
    unfold getPenalizedAmount
    rw [if_pos hsize]
    split
    · rename_i hzero
      exact hzero.symm
    · rfl
  have hbase := baseReward_le c.alreadyGeneratedCoins c.blockHeight
  unfold InRange emissionChange penalizedFee penalizedBaseReward
  rw [hfull, hfull, ite_self]
  unfold moneySupply at hbase
  constructor
  · intro h
    exact (h (by omega)).1
  · intro h _
    omega

end RewardCall

namespace ChainState

variable (s : ChainState)

def rewardCall (view : ChainView) (block : BlockTemplate) (head : BlockHead)
    (previousIndex fee : Nat) : Except ChainError (BlockInfo × RewardCall) := do
  let parentInfo ← orRefuse (s.infoInView view previousIndex) (infoMissing previousIndex)
  let sizeMedian ← s.rewardSizeMedian view previousIndex
  pure (parentInfo,⟨block.majorVersion,sizeMedian,head.cumulativeBlockSize,
    parentInfo.alreadyGeneratedCoins,fee,block.coinbaseHeight.getD 0⟩)

/-- `check_main` as far as its call. -/
def mainCall (cx : Crypto) (block : BlockTemplate) (txBlobs : List Bytes) (hash : Hash)
    (previousIndex : Nat) : Except ChainError RewardCall := do
  let view := ChainView.mainChain previousIndex
  let claimedIndex := block.coinbaseHeight.getD 0
  let head ← s.checkHead cx view block txBlobs previousIndex
  if head.transactions ≠ [] then
    s.checkpointOrProofOfWork cx block claimedIndex hash head.difficulty
  let (_,fee) ← validateTransactionsLoop cx block s.access
    (s.txContext block previousIndex) (head.transactions.zip txBlobs) 0 .new [] 0
  let (_,c) ← s.rewardCall view block head previousIndex fee
  pure c

/-- `check_alternative` as far as its call. -/
def alternativeCall (cx : Crypto) (view : ChainView) (block : BlockTemplate)
    (txBlobs : List Bytes) (previousIndex : Nat) : Except ChainError RewardCall := do
  let head ← s.checkHead cx view block txBlobs previousIndex
  let fee ← alternativeFees block head.transactions 0 0
  let (_,c) ← s.rewardCall view block head previousIndex fee
  pure c

theorem checkReward_eq_call (view : ChainView) (block : BlockTemplate) (head : BlockHead)
    (previousIndex fee : Nat) : s.checkReward view block head previousIndex fee = (do
      let (parentInfo,c) ← s.rewardCall view block head previousIndex fee
      let reward ← orRefuse c.run
        (ChainError.rule (.cumulativeBlockSizeTooBig head.cumulativeBlockSize (2*c.median)))
      refuseIf (head.minerReward ≠ reward.reward)
        (ChainError.rule (.blockRewardMismatch reward.reward head.minerReward))
      pure (parentInfo,reward)) := by
  unfold checkReward rewardCall
  cases orRefuse (s.infoInView view previousIndex) (infoMissing previousIndex) with
  | error e => rfl
  | ok parentInfo =>
    cases s.rewardSizeMedian view previousIndex with
    | error e => rfl
    | ok median => rfl

variable {s} {cx : Crypto} {view : ChainView} {block : BlockTemplate} {txBlobs : List Bytes}
  {hash : Hash} {prev : Nat} {c : RewardCall}

theorem rewardCall_fee {head : BlockHead} {fee : Nat} {parentInfo : BlockInfo}
    (h : s.rewardCall view block head prev fee = .ok (parentInfo,c)) : c.fee = fee := by
  simp only [rewardCall, bind_ok_iff, pure_ok_iff, Prod.mk.injEq] at h
  obtain ⟨_,_,_,_,_,rfl⟩ := h
  rfl

/-- A block refused before the call is refused for the same reason. -/
theorem checkMain_of_mainCall_error {e : ChainError}
    (h : s.mainCall cx block txBlobs hash prev = .error e) :
    s.checkMain cx block txBlobs hash prev = .error e := by
  have hreward {head : BlockHead} {fee : Nat}
      (hcall : ((s.rewardCall (.mainChain prev) block head prev fee) >>= fun r =>
        (pure r.2 : Except ChainError RewardCall)) = .error e) :
      s.checkReward (.mainChain prev) block head prev fee = .error e := by
    rw [bind_error_iff] at hcall
    rw [checkReward_eq_call, bind_error_iff]
    rcases hcall with hcall | ⟨_,_,hfalse⟩
    · exact .inl hcall
    · cases hfalse
  unfold mainCall at h
  unfold checkMain
  rw [bind_error_iff] at h ⊢
  rcases h with h | ⟨head,hhead,h⟩
  · exact .inl h
  · refine .inr ⟨head,hhead,?_⟩
    by_cases htx : head.transactions = []
    · simp only [htx, ne_eq, not_true_eq_false, if_false, if_true] at h ⊢
      rw [bind_error_iff] at h ⊢
      rcases h with h | ⟨r,hloop,h⟩
      · exact .inl h
      · exact .inr ⟨r,hloop,bind_error_iff.2 (.inl (hreward h))⟩
    · simp only [htx, ne_eq, not_false_eq_true, if_false, if_true] at h ⊢
      rw [bind_error_iff] at h ⊢
      rcases h with h | ⟨u,hwork,h⟩
      · exact .inl h
      · refine .inr ⟨u,hwork,?_⟩
        rw [bind_error_iff] at h ⊢
        rcases h with h | ⟨r,hloop,h⟩
        · exact .inl h
        · exact .inr ⟨r,hloop,bind_error_iff.2 (.inl (hreward h))⟩

end ChainState

theorem alternativeFees_total {block : BlockTemplate} {txs : List Transaction} {i fee fee' : Nat}
    (h : alternativeFees block txs i fee = .ok fee') : fee' = totalFees fee txs := by
  induction txs generalizing i fee with
  | nil =>
    cases h
    rfl
  | cons tx txs ih =>
    simp only [alternativeFees, bind_ok_iff, orRefuse_ok_iff] at h
    obtain ⟨sumIn,hin,sumOut,hout,_,_,hrest⟩ := h
    rw [ih hrest]
    have hin' := (checkedSum_eq_some hin).1
    have hout' := (checkedSum_eq_some hout).1
    rw [Nat.zero_add] at hin' hout'
    subst hin' hout'
    rfl

theorem totalFees_le (txs : List Transaction) (fee : Nat) :
    totalFees fee txs ≤ fee + (txs.map Transaction.fee).sum := by
  induction txs generalizing fee with
  | nil => exact le_refl _
  | cons tx txs ih =>
    have hstep : totalFees fee (tx :: txs) = totalFees (saturate64 (fee + tx.fee)) txs := rfl
    have hsat : saturate64 (fee + tx.fee) ≤ fee + tx.fee := min_le_left _ _
    have hrest := ih (saturate64 (fee + tx.fee))
    rw [hstep, List.map_cons, List.sum_cons]
    omega

/-- The call made for a block put to the rules, if it is reached. -/
def Attempt.rewardCall (cx : Crypto) : Attempt → Option RewardCall
  | .main s _ block raw hash prev => (s.mainCall cx block raw.transactions hash prev).toOption
  | .alternative s view block raw _ prev =>
    (s.alternativeCall cx view block raw.transactions prev).toOption

/-- The fees of a block's transactions add up to at most `2^63`. -/
def RawBlock.FeesFit (raw : RawBlock) : Prop :=
  ∀ block ∈ (BlockTemplate.fromBytes raw.block).toOption,
    ∀ txs ∈ (parseTransactions block raw.transactions).toOption,
      (txs.map Transaction.fee).sum ≤ 2^63

instance (raw : RawBlock) : Decidable raw.FeesFit :=
  inferInstanceAs (Decidable (∀ block ∈ (BlockTemplate.fromBytes raw.block).toOption,
    ∀ txs ∈ (parseTransactions block raw.transactions).toOption,
      (txs.map Transaction.fee).sum ≤ 2^63))

section

variable {cx : Crypto} {s : ChainState} {view : ChainView} {block : BlockTemplate} {raw : RawBlock}
  {hash : Hash} {prev : Nat} {c : RewardCall}

theorem RawBlock.FeesFit.totalFees_le (h : raw.FeesFit)
    (hparsed : BlockTemplate.fromBytes raw.block = .ok block) {txs : List Transaction}
    (htxs : parseTransactions block raw.transactions = .ok txs) : totalFees 0 txs ≤ 2^63 := by
  have hsum := h block (by rw [hparsed]; rfl) txs (by rw [htxs]; rfl)
  have := Wrkz.totalFees_le txs 0
  omega

section

variable (hfit : raw.FeesFit) (hparsed : BlockTemplate.fromBytes raw.block = .ok block)
include hfit hparsed

theorem ChainState.mainCall_fee_le
    (h : s.mainCall cx block raw.transactions hash prev = .ok c) : c.fee ≤ 2^63 := by
  obtain ⟨head,fee,hhead,v,hloop,parent,hcall⟩ : ∃ head fee,
      s.checkHead cx (.mainChain prev) block raw.transactions prev = .ok head ∧
      ∃ v, validateTransactionsLoop cx block s.access (s.txContext block prev)
        (head.transactions.zip raw.transactions) 0 .new [] 0 = .ok (v,fee) ∧
      ∃ parent, s.rewardCall (.mainChain prev) block head prev fee = .ok (parent,c) := by
    unfold mainCall at h
    obtain ⟨head,hhead,h⟩ := bind_ok_iff.1 h
    by_cases htx : head.transactions = []
    · simp only [htx, ne_eq, not_true_eq_false, if_false, bind_ok_iff, pure_ok_iff] at h
      obtain ⟨⟨v,fee⟩,hloop,⟨parent,_⟩,hcall,rfl⟩ := h
      exact ⟨head,fee,hhead,v,by rwa [htx],parent,hcall⟩
    · simp only [htx, ne_eq, not_false_eq_true, if_true, bind_ok_iff, pure_ok_iff] at h
      obtain ⟨_,_,⟨v,fee⟩,hloop,⟨parent,_⟩,hcall,rfl⟩ := h
      exact ⟨head,fee,hhead,v,hloop,parent,hcall⟩
  obtain ⟨txs,_,_,_,htxs,_,_,_,_,_,rfl⟩ := checkHead_ok_iff.1 hhead
  have hfee := (validateTransactionsLoop_spec hloop).2.2
  rw [List.map_fst_zip (parseTransactions_length htxs).1.le] at hfee
  rw [rewardCall_fee hcall, hfee]
  exact hfit.totalFees_le hparsed htxs

theorem ChainState.alternativeCall_fee_le
    (h : s.alternativeCall cx view block raw.transactions prev = .ok c) : c.fee ≤ 2^63 := by
  simp only [alternativeCall, bind_ok_iff, pure_ok_iff] at h
  obtain ⟨head,hhead,fee,hfees,⟨parent,_⟩,hcall,rfl⟩ := h
  obtain ⟨txs,_,_,_,htxs,_,_,_,_,_,rfl⟩ := checkHead_ok_iff.1 hhead
  rw [rewardCall_fee hcall, alternativeFees_total hfees]
  exact hfit.totalFees_le hparsed htxs

end

theorem Attempt.rewardCall_inRange {U : Set RawBlock} (hU : ∀ raw ∈ U, raw.FeesFit) {a : Attempt}
    (ha : a.Given U) (hc : a.rewardCall cx = some c) : c.InRange := by
  obtain ⟨hknown,hparsed⟩ := ha
  refine RewardCall.inRange_of_fee_le ?_
  cases a with
  | main s held block raw hash prev =>
    exact ChainState.mainCall_fee_le (hU raw hknown) hparsed (toOption_eq_some_iff.1 hc)
  | alternative s view block raw hash prev =>
    exact ChainState.alternativeCall_fee_le (hU raw hknown) hparsed (toOption_eq_some_iff.1 hc)

end

/-- However a run of `add_block` goes, every call of `get_block_reward` it makes is in
range, for the blocks it accepts and for those it refuses, when the fees of the
blocks it is given fit. -/
theorem reward_calls_in_range {cx : Crypto} {cfg : Config} {checkpoints : Checkpoints}
    {clock : Nat} {s : ChainState}
    (hopen : ChainState.openOrGenesis cx cfg checkpoints clock = .ok ⟨⟩ s)
    {offers : List (Nat × RawBlock)} (hfees : ∀ offer ∈ offers, offer.2.FeesFit) :
    (runBlocksTraced cx offers (s,[])).1 = runBlocks cx offers s ∧
      ∀ a ∈ (runBlocksTraced cx offers (s,[])).2, ∀ c ∈ a.rewardCall cx, c.InRange := by
  refine ⟨runBlocksTraced_fst offers (s,[]),?_⟩
  let U := blocksOf cx (offers.map Prod.snd)
  have hclean : Traced.Clean (ChainState.KnowsBlocks U) (Attempt.Given U)
      (runBlocksTraced cx offers (s,[])) :=
    runBlocksTraced_given (fun offer ho => .inl (List.mem_map_of_mem ho))
      ⟨openOrGenesis_knowsBlocks hopen _,by simp⟩
  have hU : ∀ raw ∈ U, raw.FeesFit := by
    rintro raw (hraw | ⟨_,_,_,hnone⟩)
    · obtain ⟨offer,ho,rfl⟩ := List.mem_map.1 hraw
      exact hfees offer ho
    · -- the genesis block has no transactions
      intro block _ txs htxs
      rw [hnone] at htxs
      have hlen := (parseTransactions_length (toOption_eq_some_iff.1 htxs)).1
      rw [List.length_eq_zero_iff.1 hlen]
      exact Nat.zero_le _
  intro a ha c hc
  exact Attempt.rewardCall_inRange hU (hclean.2 a ha) hc

/-- Two blocks with a fee of 100 each. -/
theorem reward_calls_in_range_sample :
    let x := runBlocksTraced sampleCrypto (sampleOffers 1000 sampleRespend)
      (sampleNode defaultConfig sampleZone 1000,[])
    (x.2.filterMap (Attempt.rewardCall sampleCrypto)).map RewardCall.fee = [100,100] ∧
      ∀ a ∈ x.2, ∀ c ∈ a.rewardCall sampleCrypto, c.InRange :=
  ⟨by decide +kernel,(reward_calls_in_range (sampleNode_open defaultConfig sampleZone 1000)
    (by decide +kernel)).2⟩

/-- A block beside the first one of the chain, whose transaction claims an input of
`2^64 - 1`. -/
def sampleOverpaid : List (BlockTemplate × List Transaction) :=
  let tx := sampleSpend (2^64 - 1) 0 (2^64 - 2) (mixHash [7])
  [(sampleBlock 1 61 (sampleReward sampleGenesisCoins - 2) sampleGenesisId [sampleTxId tx],[tx])]

/-- The fee and the reward do not fit in 64 bits, and the block is kept as an
alternative with the reward that is left. -/
theorem reward_call_overflows :
    let x := runBlocksTraced sampleCrypto (sampleMain ++ sampleOffers 1000 sampleOverpaid)
      (sampleNode defaultConfig .none 1000,[])
    x.1.altBlocks.length = 1 ∧ ∃ a ∈ x.2, ∃ c ∈ a.rewardCall sampleCrypto,
      2^64 ≤ c.penalizedBaseReward + c.penalizedFee ∧ ¬ c.InRange := by
  decide +kernel

end Wrkz
