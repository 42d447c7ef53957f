import Wrkz.Chain.Verdict

/-!
Verdicts depend on what they read. Two states that agree on the infos below a
block, on the rules and on the spends give the same verdict, and a later clock
never turns an accepted block into a refused one.
-/

set_option autoImplicit false

namespace Wrkz

open Library

/-- The two states see the same infos up to `prev`, and judge by the same rules. -/
structure Agree (s t : ChainState) (v w : ChainView) (prev : Nat) : Prop where
  simnet : t.cfg.simnet = s.cfg.simnet
  checkpoints : t.checkpoints = s.checkpoints
  powHint : t.powHint = s.powHint
  strict : t.strictTransactionList = s.strictTransactionList
  clock : s.clock ≤ t.clock
  infos : ∀ i, i ≤ prev → t.infoInView w i = s.infoInView v i

section

variable {cx : Crypto} {s t : ChainState} {v w : ChainView} {prev : Nat}

theorem infosInView_congr {idxs : List Nat} (h : ∀ i ∈ idxs, t.infoInView w i = s.infoInView v i) :
    t.infosInView w idxs = s.infosInView v idxs := by
  induction idxs with
  | nil => rfl
  | cons i idxs ih =>
    have hi := h i List.mem_cons_self
    have hrest := ih (fun j hj => h j (List.mem_cons_of_mem _ hj))
    simp only [ChainState.infosInView, hi, hrest]

namespace Agree

section

variable (h : Agree s t v w prev)
include h

theorem lastInfos_eq (count : Nat) : t.lastInfos w count prev = s.lastInfos v count prev := by
  refine infosInView_congr ?_
  intro i hi
  have hi' := List.mem_range'_1.1 hi
  exact h.infos i (by omega)

theorem difficultyForNextBlock_eq :
    t.difficultyForNextBlock w prev = s.difficultyForNextBlock v prev := by
  have hinfos : t.infosInView w (difficultyWindowIndexes prev) =
      s.infosInView v (difficultyWindowIndexes prev) := by
    refine infosInView_congr ?_
    intro i hi
    have hi' := List.mem_range'_1.1 hi
    exact h.infos i (by omega)
  simp only [ChainState.difficultyForNextBlock, h.simnet, hinfos]

theorem timestampMedian_eq : t.timestampMedian w prev = s.timestampMedian v prev := by
  simp only [ChainState.timestampMedian, h.lastInfos_eq]

theorem rewardSizeMedian_eq : t.rewardSizeMedian w prev = s.rewardSizeMedian v prev := by
  simp only [ChainState.rewardSizeMedian, h.lastInfos_eq]

end

variable {block : BlockTemplate} {txBlobs : List Bytes}

variable (h : Agree s t v w prev)
include h

theorem checkTimestamp_ok
    (hok : s.checkTimestamp block v prev = .ok ⟨⟩) : t.checkTimestamp block w prev = .ok ⟨⟩ := by
  unfold ChainState.checkTimestamp at hok ⊢
  simp only [bind_ok_iff, refuseIf_ok_iff, Nat.not_lt] at hok ⊢
  obtain ⟨⟨⟩,hfuture,median,hmedian,hpast⟩ := hok
  refine ⟨⟨⟩,?_,median,by rw [h.timestampMedian_eq]; exact hmedian,hpast⟩
  have hclock := h.clock
  unfold saturate64 at hfuture ⊢
  omega

theorem checkHead_ok {head : BlockHead} (hok : s.checkHead cx v block txBlobs prev = .ok head) :
    t.checkHead cx w block txBlobs prev = .ok head := by
  obtain ⟨txs,coinbase,reward,difficulty,htxs,hcb,hsize,hblock,hdiff,hlist,rfl⟩ :=
    checkHead_ok_iff.1 hok
  obtain ⟨hversion,hparent,htime,hcoinbase⟩ := validateBlock_ok_iff.1 hblock
  refine checkHead_ok_iff.2 ⟨txs,coinbase,reward,difficulty,htxs,hcb,hsize,?_,?_,?_,rfl⟩
  · exact validateBlock_ok_iff.2 ⟨hversion,hparent,h.checkTimestamp_ok htime,hcoinbase⟩
  · rw [h.difficultyForNextBlock_eq]
    exact hdiff
  · rw [h.strict]
    exact hlist

theorem checkpointOrProofOfWork_eq (block : BlockTemplate)
    (claimed : Nat) (hash : Hash) (difficulty : Nat) :
    t.checkpointOrProofOfWork cx block claimed hash difficulty =
      s.checkpointOrProofOfWork cx block claimed hash difficulty := by
  simp only [ChainState.checkpointOrProofOfWork, ChainState.proofOfWorkPasses, h.checkpoints,
    h.simnet, h.powHint]

theorem checkReward_eq (block : BlockTemplate) (head : BlockHead)
    (fee : Nat) : t.checkReward w block head prev fee = s.checkReward v block head prev fee := by
  simp only [ChainState.checkReward, h.infos prev (Nat.le_refl _), h.rewardSizeMedian_eq]

theorem checkAlternative_ok {hash : Hash} {r : BlockInfo × Nat}
    (hok : s.checkAlternative cx v block txBlobs hash prev = .ok r) :
    t.checkAlternative cx w block txBlobs hash prev = .ok r := by
  obtain ⟨head,fee,parent,reward,info,hhead,hfee,hreward,hwork,hinfo,rfl⟩ :=
    checkAlternative_ok_iff.1 hok
  refine checkAlternative_ok_iff.2 ⟨head,fee,parent,reward,info,h.checkHead_ok hhead,hfee,?_,?_,
    hinfo,rfl⟩
  · rw [h.checkReward_eq]
    exact hreward
  · rw [h.checkpointOrProofOfWork_eq]
    exact hwork

end Agree

/-- The chain answers the same, at a later time. -/
structure AccessAgree (a b : ChainAccess) : Prop where
  keyImageSpent : b.keyImageSpent = a.keyImageSpent
  keyOutput : b.keyOutput = a.keyOutput
  topBlockTimestamp : b.topBlockTimestamp = a.topBlockTimestamp
  now : a.now ≤ b.now

namespace AccessAgree

variable {a b : ChainAccess} {ctx : TxContext}

theorem unlocked (h : AccessAgree a b) {unlockTime index : Nat}
    (hok : isSpendTimeUnlocked a unlockTime index = true) :
    isSpendTimeUnlocked b unlockTime index = true := by
  unfold isSpendTimeUnlocked at hok ⊢
  rw [h.topBlockTimestamp]
  have hnow := h.now
  split
  · rename_i hlt
    rwa [if_pos hlt] at hok
  · rename_i hlt
    rw [if_neg hlt] at hok
    split
    · rename_i hle
      rwa [if_pos hle] at hok
    · rename_i hle
      rw [if_neg hle] at hok
      simp only [decide_eq_true_eq] at hok ⊢
      omega

theorem gatherMembers_ok (h : AccessAgree a b) {amount : Nat} {idxs : List Nat}
    {ring : List Hash} (hok : gatherMembers a ctx amount idxs = .ok ring) :
    gatherMembers b ctx amount idxs = .ok ring := by
  induction idxs generalizing ring with
  | nil => exact hok
  | cons i idxs ih =>
    simp only [gatherMembers, List.map_cons, unlockedMembers, bind_ok_iff, orRefuse_ok_iff,
      refuseIf_ok_iff, pure_ok_iff, h.keyOutput] at hok ⊢
    simp only [gatherMembers, h.keyOutput] at ih
    obtain ⟨record,hrecord,⟨⟩,hunlocked,ring',hring',rfl⟩ := hok
    refine ⟨record,hrecord,⟨⟩,?_,ring',ih hring',rfl⟩
    have hopen := h.unlocked (by simpa using hunlocked)
    simpa using hopen

variable {tx : Transaction} {i : Nat}

variable (h : AccessAgree a b)
include h

theorem gatherRing_ok {input : Input} {r : Hash × List Hash × List Signature}
    (hok : gatherRing tx input i a ctx = .ok r) : gatherRing tx input i b ctx = .ok r := by
  cases input with
  | base index => exact hok
  | key amount offsets image =>
    obtain ⟨hspent,absolute,habsolute,ring,hring,hlast⟩ := gatherRing_ok_iff.1 hok
    rw [← h.keyImageSpent] at hspent
    exact gatherRing_ok_iff.2 ⟨hspent,absolute,habsolute,ring,h.gatherMembers_ok hring,hlast⟩

theorem gatherInputsExpensive_eq {cx : Crypto} {txIndex : Nat} {inputs : List Input} {u : PUnit}
    (hok : (gatherInputsExpensive cx tx a ctx txIndex inputs i).2 = .ok u) :
    gatherInputsExpensive cx tx b ctx txIndex inputs i =
      gatherInputsExpensive cx tx a ctx txIndex inputs i := by
  induction inputs generalizing i u with
  | nil => rfl
  | cons input inputs ih =>
    rw [gatherInputsExpensive_cons] at hok
    rw [gatherInputsExpensive_cons, gatherInputsExpensive_cons]
    obtain ⟨r,hr,hrest⟩ := Logged.bind_snd_ok_iff.1 hok
    have hr' : gatherRing tx input i a ctx = .ok r := hr
    rw [h.gatherRing_ok hr', hr']
    rw [hr'] at hok
    refine Logged.bind_congr_of_ok hok ?_
    intro r' _ hrest'
    refine Logged.bind_congr_of_ok hrest' ?_
    intro _ _ hlast
    exact ih hlast

theorem validateTransactionDeferred_eq {cx : Crypto}
    {blob : Bytes} {state : ValidatorState} {r : TxValidation × ValidatorState}
    (hok : (validateTransactionDeferred cx tx blob state a ctx i).2 = .ok r) :
    validateTransactionDeferred cx tx blob state b ctx i =
      validateTransactionDeferred cx tx blob state a ctx i := by
  rw [validateTransactionDeferred_def] at hok
  rw [validateTransactionDeferred_def, validateTransactionDeferred_def]
  refine Logged.bind_congr_of_ok hok ?_
  intro passed _ hok
  obtain ⟨u,hu,_⟩ := Logged.bind_snd_ok_iff.1 hok
  rw [settleRings_def] at hu
  rw [settleRings_def, settleRings_def]
  by_cases hzone : ctx.checkpoints.isInCheckpointZone (ctx.blockHeight+1) = true
  · rw [if_pos hzone, if_pos hzone]
  · rw [if_neg hzone] at hu
    rw [if_neg hzone, if_neg hzone, h.gatherInputsExpensive_eq hu]

theorem validateTransactionsLoop_ok {cx : Crypto} {block : BlockTemplate} :
    ∀ (txs : List (Transaction × Bytes)) (i : Nat) (state : ValidatorState)
      (batch : List PureCheck) (fee : Nat) {r : ValidatorState × Nat},
      validateTransactionsLoop cx block a ctx txs i state batch fee = .ok r →
      validateTransactionsLoop cx block b ctx txs i state batch fee = .ok r := by
  intro txs
  induction txs with
  | nil => intro i state batch fee r hok; exact hok
  | cons x txs ih =>
    obtain ⟨tx,blob⟩ := x
    intro i state batch fee r hok
    unfold validateTransactionsLoop at hok ⊢
    simp only at hok ⊢
    cases hout : (validateTransactionDeferred cx tx blob state a ctx i).2 with
    | error e =>
      rw [hout] at hok
      simp only [bind_ok_iff] at hok
      obtain ⟨_,_,hfalse⟩ := hok
      cases hfalse
    | ok vs =>
      rw [h.validateTransactionDeferred_eq hout, hout]
      rw [hout] at hok
      simp only at hok ⊢
      split
      · rename_i hbig
        rw [if_pos hbig] at hok
        obtain ⟨_,hsettle,hrest⟩ := bind_ok_iff.1 hok
        exact bind_ok_iff.2 ⟨_,hsettle,ih _ _ _ _ hrest⟩
      · rename_i hbig
        rw [if_neg hbig] at hok
        exact ih _ _ _ _ hok

end AccessAgree

/-- A block accepted once is accepted again where everything it was judged by is
the same. -/
theorem Agree.checkMain_ok (h : Agree s t (.mainChain prev) (.mainChain prev) prev)
    (hspends : AccessAgree s.access t.access) (hmedian : t.blockMedianSize = s.blockMedianSize)
    {block : BlockTemplate} {txBlobs : List Bytes} {hash : Hash} {a : Accepted}
    (hok : s.checkMain cx block txBlobs hash prev = .ok a) :
    t.checkMain cx block txBlobs hash prev = .ok a := by
  obtain ⟨head,v,fee,parent,reward,info,hhead,hwork,hloop,hreward,hinfo,rfl⟩ :=
    checkMain_ok_iff.1 hok
  refine checkMain_ok_iff.2 ⟨head,v,fee,parent,reward,info,h.checkHead_ok hhead,?_,?_,?_,hinfo,rfl⟩
  · rw [h.checkpointOrProofOfWork_eq]
    exact hwork
  · have hctx : t.txContext block prev = s.txContext block prev := by
      simp only [ChainState.txContext, hmedian, h.checkpoints]
    rw [hctx]
    exact hspends.validateTransactionsLoop_ok _ _ _ _ _ hloop
  · rw [h.checkReward_eq]
    exact hreward

end

end Wrkz
