import Wrkz.Chain.Verdict
import Wrkz.Primitives.WellFormed

/-!
Over a view with every info in place a verdict never finds the store corrupt: a
block is refused for breaking a rule, and the rule is named.
-/

set_option autoImplicit false

namespace Wrkz

open Library ChainError ChainState

def ChainError.IsRule (e : ChainError) : Prop := ∃ r, e = .rule r

theorem ChainError.isRule (r : Rule) : (rule r).IsRule := ⟨r,rfl⟩

def ChainState.Complete (s : ChainState) (view : ChainView) (prev : Nat) : Prop :=
  ∀ i ≤ prev, (s.infoInView view i).isSome = true

def ChainError.InTransaction (e : ChainError) : Prop :=
  ∃ tx i rule, e = .rule (.transaction tx i rule)

abbrev RulesOnly {α : Type} (x : Except ChainError α) : Prop := RefusesOnly ChainError.IsRule x

theorem RulesOnly.mapError {α : Type} {x : Except Error α} {f : Error → ChainError}
    (hf : ∀ e, (f e).IsRule) : RulesOnly (x.mapError f) := by
  cases x with
  | error e => exact .error (hf e)
  | ok a => exact .ok a

section

variable {cx : Crypto} {s : ChainState} {view : ChainView} {prev : Nat} {block : BlockTemplate}
  {txBlobs : List Bytes} {hash : Hash}

theorem ChainState.Complete.infosInView (h : s.Complete view prev) (idxs : List Nat)
    (hidx : ∀ i ∈ idxs, i ≤ prev) : ∃ infos, s.infosInView view idxs = .ok infos := by
  induction idxs with
  | nil => exact ⟨[],rfl⟩
  | cons i rest ih =>
    obtain ⟨info,hinfo⟩ := Option.isSome_iff_exists.1 (h i (hidx i List.mem_cons_self))
    obtain ⟨infos,hinfos⟩ := ih fun j hj => hidx j (List.mem_cons_of_mem _ hj)
    refine ⟨info :: infos,?_⟩
    simp [ChainState.infosInView, hinfo, hinfos, orRefuse, bind, Except.bind, pure, Except.pure]

theorem ChainState.Complete.lastInfos (h : s.Complete view prev) (count : Nat) :
    ∃ infos, s.lastInfos view count prev = .ok infos := by
  refine h.infosInView _ fun i hi => ?_
  have := List.mem_range'_1.1 hi
  omega

theorem ChainState.Complete.rulesOnly_difficulty (h : s.Complete view prev) :
    RulesOnly (s.difficultyForNextBlock view prev) := by
  unfold difficultyForNextBlock
  refine .ite (fun _ => .ok _) fun _ => ?_
  have hidx : ∀ i ∈ difficultyWindowIndexes prev, i ≤ prev := by
    intro i hi
    have := List.mem_range'_1.1 hi
    omega
  obtain ⟨infos,hinfos⟩ := h.infosInView _ hidx
  rw [hinfos]
  exact .bind (.ok _) fun _ _ => .ok _

theorem rulesOnly_checkParentBlock : RulesOnly (checkParentBlock cx block) := by
  unfold checkParentBlock
  refine .ite (fun _ => .ok _) fun _ => ?_
  refine .bind (.orRefuse (isRule _)) fun parent _ => ?_
  refine .bind (.refuseIf (isRule _)) fun _ _ => ?_
  refine .bind (RulesOnly.mapError fun _ => isRule _) fun w _ => ?_
  exact .refuseIf (isRule _)

theorem ChainState.Complete.rulesOnly_checkTimestamp (h : s.Complete view prev) :
    RulesOnly (s.checkTimestamp block view prev) := by
  unfold checkTimestamp
  refine .bind (.refuseIf (isRule _)) fun _ _ => ?_
  have hmedian : RulesOnly (s.timestampMedian view prev) := by
    unfold timestampMedian
    obtain ⟨infos,hinfos⟩ := h.lastInfos (timestampCheckWindow (prev+1))
    simp only [hinfos]
    exact .bind (.ok _) fun _ _ => .ite (fun _ => .ok _) fun _ => .ok _
  refine .bind hmedian fun median _ => ?_
  cases median with
  | none => exact .ok _
  | some median => exact .refuseIf (isRule _)

theorem rulesOnly_coinbaseTotal {outputs : List Output} {total : Nat} :
    RulesOnly (coinbaseTotal cx outputs total) := by
  induction outputs generalizing total with
  | nil => exact .ok _
  | cons output rest ih =>
    refine .bind (.refuseIf (isRule _)) fun _ _ => ?_
    refine .bind (.refuseIf (isRule _)) fun _ _ => ?_
    exact .bind (.orRefuse (isRule _)) fun total _ => ih

variable {txs : List Transaction} {head : BlockHead} {batch : List PureCheck} {claimed : Nat}
  {fee : Nat}

theorem rulesOnly_checkCoinbase {coinbase : Transaction} :
    RulesOnly (checkCoinbase cx coinbase claimed prev) := by
  unfold checkCoinbase
  refine .bind (.refuseIf (isRule _)) fun _ _ => ?_
  split
  · refine .bind (.refuseIf (isRule _)) fun _ _ => ?_
    refine .bind (.refuseIf (isRule _)) fun _ _ => ?_
    exact .bind (.refuseIf (isRule _)) fun _ _ => rulesOnly_coinbaseTotal
  · exact .error (isRule _)

theorem ChainState.Complete.rulesOnly_validateBlock (h : s.Complete view prev) :
    RulesOnly (s.validateBlock cx block view prev) := by
  unfold validateBlock
  refine .bind (.refuseIf (isRule _)) fun _ _ => ?_
  refine .bind rulesOnly_checkParentBlock fun _ _ => ?_
  exact .bind h.rulesOnly_checkTimestamp fun _ _ => rulesOnly_checkCoinbase

theorem rulesOnly_parseTransactionBlobs : RulesOnly (parseTransactionBlobs txBlobs) := by
  induction txBlobs with
  | nil => exact .ok _
  | cons blob rest ih =>
    refine .bind (RulesOnly.mapError fun _ => isRule _) fun tx _ => ?_
    exact .bind ih fun txs _ => .ok _

theorem rulesOnly_parseTransactions : RulesOnly (parseTransactions block txBlobs) :=
  .bind (.refuseIf (isRule _)) fun _ _ => rulesOnly_parseTransactionBlobs

theorem rulesOnly_checkNamedHashes {hashes : List Hash} :
    RulesOnly (checkNamedHashes cx txs hashes) := by
  induction txs generalizing hashes with
  | nil => exact .ok _
  | cons tx txs ih =>
    cases hashes with
    | nil => exact .ok _
    | cons named hashes =>
      refine .bind (RulesOnly.mapError fun _ => isRule _) fun hash _ => ?_
      exact .bind (.refuseIf (isRule _)) fun _ _ => ih

theorem rulesOnly_suppliedHashes : RulesOnly (suppliedHashes cx txs) := by
  induction txs with
  | nil => exact .ok _
  | cons tx txs ih =>
    refine .bind (RulesOnly.mapError fun _ => isRule _) fun hash _ => ?_
    exact .bind ih fun _ _ => .ok _

theorem rulesOnly_checkTransactionList {strict : Bool} :
    RulesOnly (checkTransactionList cx block txs claimed strict) := by
  unfold checkTransactionList
  refine .ite (fun _ => .ite (fun _ => .ok _) fun _ => rulesOnly_checkNamedHashes) fun _ => ?_
  refine .bind (.refuseIf (isRule _)) fun _ _ => ?_
  refine .bind rulesOnly_suppliedHashes fun supplied _ => ?_
  refine .bind (.refuseIf (isRule _)) fun _ _ => ?_
  refine .bind (.refuseIf (isRule _)) fun _ _ => ?_
  exact .refuseIf (isRule _)

theorem ChainState.Complete.rulesOnly_checkHead (h : s.Complete view prev) :
    RulesOnly (s.checkHead cx view block txBlobs prev) := by
  unfold checkHead
  refine .bind rulesOnly_parseTransactions fun txs _ => ?_
  refine .bind (RulesOnly.mapError fun _ => isRule _) fun coinbase _ => ?_
  refine .bind (.refuseIf (isRule _)) fun _ _ => ?_
  refine .bind h.rulesOnly_validateBlock fun minerReward _ => ?_
  refine .bind h.rulesOnly_difficulty fun difficulty _ => ?_
  refine .bind (.orRefuse (isRule _)) fun difficulty _ => ?_
  exact .bind rulesOnly_checkTransactionList fun _ _ => .ok _

theorem rulesOnly_checkpointOrProofOfWork {claimed difficulty : Nat} :
    RulesOnly (s.checkpointOrProofOfWork cx block claimed hash difficulty) := by
  unfold checkpointOrProofOfWork
  refine .ite (fun _ => .refuseIf (isRule _)) fun _ => ?_
  refine .bind ?_ fun passes _ => .refuseIf (isRule _)
  unfold proofOfWorkPasses
  exact .ite (fun _ => .ok _) fun _ => RulesOnly.mapError fun _ => isRule _

theorem refusesOnly_settleBatch : RefusesOnly InTransaction (settleBatch cx block batch) := by
  unfold settleBatch
  split
  · exact .ok _
  · exact .error ⟨_,_,_,rfl⟩

variable {chain : ChainAccess} {v : ValidatorState} {ctx : TxContext} {i : Nat}

theorem refusesOnly_validateTransactionsLoop {txs : List (Transaction × Bytes)} :
    RefusesOnly InTransaction (validateTransactionsLoop cx block chain ctx txs i v batch fee) := by
  induction txs generalizing i v batch fee with
  | nil => exact .bind refusesOnly_settleBatch fun _ _ => .ok _
  | cons tx rest ih =>
    obtain ⟨tx,blob⟩ := tx
    unfold validateTransactionsLoop
    dsimp only
    split
    · exact .bind refusesOnly_settleBatch fun _ _ => .error ⟨_,_,_,rfl⟩
    · exact .ite (fun _ => .bind refusesOnly_settleBatch fun _ _ => ih) fun _ => ih

theorem rulesOnly_validateTransactionsLoop {txs : List (Transaction × Bytes)} :
    RulesOnly (validateTransactionsLoop cx block chain ctx txs i v batch fee) := by
  intro e he
  obtain ⟨_,_,_,rfl⟩ := refusesOnly_validateTransactionsLoop e he
  exact isRule _

theorem ChainState.Complete.rulesOnly_checkReward (h : s.Complete view prev) :
    RulesOnly (s.checkReward view block head prev fee) := by
  unfold checkReward
  obtain ⟨parent,hparent⟩ := Option.isSome_iff_exists.1 (h prev (Nat.le_refl _))
  rw [hparent]
  refine .bind (.ok _) fun parentInfo _ => ?_
  have hmedian : RulesOnly (s.rewardSizeMedian view prev) := by
    unfold rewardSizeMedian
    obtain ⟨infos,hinfos⟩ := h.lastInfos cryptonoteRewardBlocksWindow
    rw [hinfos]
    exact .bind (.ok _) fun _ _ => .ok _
  refine .bind hmedian fun median _ => ?_
  refine .bind (.orRefuse (isRule _)) fun reward _ => ?_
  exact .bind (.refuseIf (isRule _)) fun _ _ => .ok _

theorem checkHead_size_lt (hblock : block.WellFormed)
    (h : s.checkHead cx view block txBlobs prev = .ok head) : head.cumulativeBlockSize < 2^32 := by
  have hheight := hblock.coinbaseHeight_lt (checkHead_coinbaseHeight h)
  obtain ⟨_,_,_,_,_,_,hsize,_,_,_,rfl⟩ := checkHead_ok_iff.1 h
  refine lt_of_le_of_lt hsize ?_
  have hden : maxBlockSizeGrowthSpeedDenominator = 525600 := rfl
  simp only [maxBlockCumulativeSize, maxBlockSizeInitial, maxBlockSizeGrowthSpeedNumerator, hden]
  omega

theorem nextInfo_of_size (parent : BlockInfo) (reward : Reward)
    (hsize : head.cumulativeBlockSize < 2^32) :
    ∃ info, nextInfo parent reward block hash head = .ok info :=
  ⟨_,nextInfo_ok_iff.2 ⟨hsize,rfl⟩⟩

theorem checkMain_rulesOnly (h : s.Complete (.mainChain prev) prev) (hblock : block.WellFormed) :
    RulesOnly (s.checkMain cx block txBlobs hash prev) := by
  unfold checkMain
  refine .bind h.rulesOnly_checkHead fun head hhead => ?_
  have hinfo : ∀ parent reward, RulesOnly (nextInfo parent reward block hash head) := by
    intro parent reward
    obtain ⟨info,hok⟩ : ∃ info, nextInfo parent reward block hash head = .ok info :=
      nextInfo_of_size parent reward (checkHead_size_lt hblock hhead)
    rw [hok]
    exact .ok info
  -- the work is checked before the transactions or after the reward
  by_cases htx : head.transactions = []
  · simp only [htx, ne_eq, not_true_eq_false, if_false, if_true]
    refine .bind rulesOnly_validateTransactionsLoop fun x _ => ?_
    refine .bind h.rulesOnly_checkReward fun y _ => ?_
    refine .bind rulesOnly_checkpointOrProofOfWork fun _ _ => ?_
    exact .bind (hinfo y.1 y.2) fun _ _ => .ok _
  · simp only [htx, ne_eq, not_false_eq_true, if_false, if_true]
    refine .bind rulesOnly_checkpointOrProofOfWork fun _ _ => ?_
    refine .bind rulesOnly_validateTransactionsLoop fun x _ => ?_
    refine .bind h.rulesOnly_checkReward fun y _ => ?_
    exact .bind (hinfo y.1 y.2) fun _ _ => .ok _

theorem HoldsTables.complete {chain : MainChain cx} (h : HoldsTables s chain)
    (hprev : prev < chain.length) : s.Complete (.mainChain prev) prev := by
  intro i hi
  unfold infoInView
  rw [if_neg (by simp only [ChainView.mainChain]; omega), h.blockInfo_eq,
    List.getElem?_eq_getElem (by omega)]
  rfl

end

end Wrkz
