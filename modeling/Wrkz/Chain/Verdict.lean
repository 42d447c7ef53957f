import Wrkz.Chain.Unwind

/-!
What an accepted block has passed. Each verdict of the state is taken apart into
its checks, as an equivalence, so that the same lemma reads facts off an
accepted block and accepts a block again elsewhere.
-/

set_option autoImplicit false

namespace Wrkz

open Library ChainState

variable {cx : Crypto} {s : ChainState} {block : BlockTemplate} {txBlobs : List Bytes}
  {hash : Hash} {prev : Nat} {view : ChainView}

theorem checkMain_ok_iff {a : Accepted} :
    s.checkMain cx block txBlobs hash prev = .ok a ↔
      ∃ head v fee parent reward info,
        s.checkHead cx (.mainChain prev) block txBlobs prev = .ok head ∧
        s.checkpointOrProofOfWork cx block (block.coinbaseHeight.getD 0) hash head.difficulty =
          .ok ⟨⟩ ∧
        validateTransactionsLoop cx block s.access (s.txContext block prev)
          (head.transactions.zip txBlobs) 0 .new [] 0 = .ok (v,fee) ∧
        s.checkReward (.mainChain prev) block head prev fee = .ok (parent,reward) ∧
        nextInfo parent reward block hash head = .ok info ∧
        a = ⟨head.transactions,info,v,head.difficulty⟩ := by
  unfold checkMain
  simp only [bind_ok_iff]
  constructor
  · rintro ⟨head,hhead,h⟩
    by_cases htx : head.transactions = []
    · simp only [htx, ne_eq, not_true_eq_false, if_false, if_true, bind_ok_iff, Prod.exists,
        pure_ok_iff] at h
      obtain ⟨v,fee,hloop,parent,reward,hreward,⟨⟩,hwork,info,hinfo,rfl⟩ := h
      exact ⟨head,v,fee,parent,reward,info,hhead,hwork,by rwa [htx],hreward,hinfo,by rw [htx]⟩
    · simp only [htx, ne_eq, not_false_eq_true, if_false, if_true, bind_ok_iff, Prod.exists,
        pure_ok_iff] at h
      obtain ⟨⟨⟩,hwork,v,fee,hloop,parent,reward,hreward,info,hinfo,rfl⟩ := h
      exact ⟨head,v,fee,parent,reward,info,hhead,hwork,hloop,hreward,hinfo,rfl⟩
  · rintro ⟨head,v,fee,parent,reward,info,hhead,hwork,hloop,hreward,hinfo,rfl⟩
    refine ⟨head,hhead,?_⟩
    by_cases htx : head.transactions = []
    · simp only [htx, ne_eq, not_true_eq_false, if_false, if_true, bind_ok_iff, Prod.exists,
        pure_ok_iff]
      exact ⟨v,fee,by rwa [htx] at hloop,parent,reward,hreward,⟨⟩,hwork,info,hinfo,rfl⟩
    · simp only [htx, ne_eq, not_false_eq_true, if_false, if_true, bind_ok_iff, Prod.exists,
        pure_ok_iff]
      exact ⟨⟨⟩,hwork,v,fee,hloop,parent,reward,hreward,info,hinfo,rfl⟩

theorem checkAlternative_ok_iff {r : BlockInfo × Nat} :
    s.checkAlternative cx view block txBlobs hash prev = .ok r ↔
      ∃ head fee parent reward info,
        s.checkHead cx view block txBlobs prev = .ok head ∧
        alternativeFees block head.transactions 0 0 = .ok fee ∧
        s.checkReward view block head prev fee = .ok (parent,reward) ∧
        s.checkpointOrProofOfWork cx block (block.coinbaseHeight.getD 0) hash head.difficulty =
          .ok ⟨⟩ ∧
        nextInfo parent reward block hash head = .ok info ∧ r = (info,head.difficulty) := by
  unfold checkAlternative
  simp only [bind_ok_iff, Prod.exists, pure_ok_iff]
  constructor
  · rintro ⟨head,hhead,fee,hfee,parent,reward,hreward,⟨⟩,hwork,info,hinfo,rfl⟩
    exact ⟨head,fee,parent,reward,info,hhead,hfee,hreward,hwork,hinfo,rfl⟩
  · rintro ⟨head,fee,parent,reward,info,hhead,hfee,hreward,hwork,hinfo,rfl⟩
    exact ⟨head,hhead,fee,hfee,parent,reward,hreward,⟨⟩,hwork,info,hinfo,rfl⟩

variable {head : BlockHead} {parent : BlockInfo} {reward : Reward}

theorem checkHead_ok_iff :
    s.checkHead cx view block txBlobs prev = .ok head ↔
      ∃ transactions coinbase minerReward difficulty,
        parseTransactions block txBlobs = .ok transactions ∧
        block.baseTransaction.toBytes = .ok coinbase ∧
        coinbase.length + (txBlobs.map List.length).sum ≤ maxBlockCumulativeSize (prev+1) ∧
        s.validateBlock cx block view prev = .ok minerReward ∧
        s.difficultyForNextBlock view prev = .ok (some difficulty) ∧
        checkTransactionList cx block transactions (block.coinbaseHeight.getD 0)
          s.strictTransactionList = .ok ⟨⟩ ∧
        head = ⟨transactions,coinbase.length + (txBlobs.map List.length).sum,minerReward,
          difficulty⟩ := by
  unfold checkHead
  simp only [bind_ok_iff, mapError_ok_iff, refuseIf_ok_iff, orRefuse_ok_iff, pure_ok_iff,
    Nat.not_lt]
  constructor
  · rintro ⟨txs,htxs,cb,hcb,⟨⟩,hsize,m,hm,d,hd,d',rfl,⟨⟩,hlist,rfl⟩
    exact ⟨txs,cb,m,d',htxs,hcb,hsize,hm,hd,hlist,rfl⟩
  · rintro ⟨txs,cb,m,d',htxs,hcb,hsize,hm,hd,hlist,rfl⟩
    exact ⟨txs,htxs,cb,hcb,⟨⟩,hsize,m,hm,some d',hd,d',rfl,⟨⟩,hlist,rfl⟩

theorem validateBlock_ok_iff {minerReward : Nat} :
    s.validateBlock cx block view prev = .ok minerReward ↔
      blockMajorVersionForIndex (block.coinbaseHeight.getD 0) = block.majorVersion ∧
        checkParentBlock cx block = .ok ⟨⟩ ∧ s.checkTimestamp block view prev = .ok ⟨⟩ ∧
        checkCoinbase cx block.baseTransaction (block.coinbaseHeight.getD 0) prev =
          .ok minerReward := by
  unfold validateBlock
  simp only [bind_ok_iff, refuseIf_ok_iff, ne_eq, not_not]
  constructor
  · rintro ⟨⟨⟩,hv,⟨⟩,hp,⟨⟩,ht,hc⟩
    exact ⟨hv,hp,ht,hc⟩
  · rintro ⟨hv,hp,ht,hc⟩
    exact ⟨⟨⟩,hv,⟨⟩,hp,⟨⟩,ht,hc⟩

theorem checkCoinbase_ok {coinbase : Transaction} {claimed total : Nat}
    (h : checkCoinbase cx coinbase claimed prev = .ok total) :
    coinbase.body.inputs = [.base (prev+1)] ∧
      coinbaseTotal cx coinbase.body.outputs 0 = .ok total := by
  unfold checkCoinbase at h
  obtain ⟨⟨⟩,_,h⟩ := bind_ok_iff.1 h
  split at h
  · rename_i blockIndex hinputs
    simp only [bind_ok_iff, refuseIf_ok_iff, ne_eq, not_not] at h
    obtain ⟨⟨⟩,hindex,⟨⟩,_,⟨⟩,_,htotal⟩ := h
    exact ⟨by rw [hinputs, hindex],htotal⟩
  · cases h

theorem checkHead_coinbaseHeight (h : s.checkHead cx view block txBlobs prev = .ok head) :
    block.coinbaseHeight = some (prev+1) := by
  obtain ⟨_,_,_,_,_,_,_,hblock,_⟩ := checkHead_ok_iff.1 h
  obtain ⟨_,_,_,hcoinbase⟩ := validateBlock_ok_iff.1 hblock
  simp [BlockTemplate.coinbaseHeight, (checkCoinbase_ok hcoinbase).1]

theorem nextInfo_ok_iff {info : BlockInfo} :
    nextInfo parent reward block hash head = .ok info ↔
      head.cumulativeBlockSize < 2^32 ∧ info = {
        blockHash := hash
        timestamp := block.timestamp
        blockSize := head.cumulativeBlockSize
        cumulativeDifficulty := wrappingAdd parent.cumulativeDifficulty head.difficulty
        alreadyGeneratedCoins :=
          wrappingAdd parent.alreadyGeneratedCoins (toU64 reward.emissionChange)
        alreadyGeneratedTransactions :=
          parent.alreadyGeneratedTransactions + head.transactions.length + 1 } := by
  unfold nextInfo
  simp only [bind_ok_iff, refuseIf_ok_iff, pure_ok_iff, Nat.not_le]
  constructor
  · rintro ⟨⟨⟩,hsize,rfl⟩
    exact ⟨hsize,rfl⟩
  · rintro ⟨hsize,rfl⟩
    exact ⟨⟨⟩,hsize,rfl⟩

theorem checkReward_ok_iff {fee : Nat} :
    s.checkReward view block head prev fee = .ok (parent,reward) ↔
      s.infoInView view prev = some parent ∧ ∃ median,
        s.rewardSizeMedian view prev = .ok median ∧
        getBlockReward block.majorVersion median head.cumulativeBlockSize
          parent.alreadyGeneratedCoins fee (block.coinbaseHeight.getD 0) = some reward ∧
        head.minerReward = reward.reward := by
  unfold checkReward
  simp only [bind_ok_iff, orRefuse_ok_iff, refuseIf_ok_iff, pure_ok_iff, ne_eq, not_not,
    Prod.mk.injEq]
  constructor
  · rintro ⟨p,hp,m,hm,r,hr,⟨⟩,heq,rfl,rfl⟩
    exact ⟨hp,m,hm,hr,heq⟩
  · rintro ⟨hp,m,hm,hr,heq⟩
    exact ⟨parent,hp,m,hm,reward,hr,⟨⟩,heq,rfl,rfl⟩

end Wrkz
