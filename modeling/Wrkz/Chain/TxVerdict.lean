import Wrkz.Chain.Verdict

/-!
What validated transactions have passed: their inputs are key inputs with images
of their own, they pay no more than they bring, and outside the checkpoint zone
every ring was found unspent and its signature verified.
-/

set_option autoImplicit false

namespace Wrkz

open Library Logged

variable {txs : List Transaction} {block : BlockTemplate} {cx : Crypto} {chain : ChainAccess}
  {tx : Transaction} {ctx : TxContext} {atOnce : Option Crypto} {u : PUnit} {inputs : List Input}
  {blobs : List Bytes} {v : TxValidation} {xs : List Nat} {txIndex : Nat} {blob : Bytes}

theorem checkedSum_cons {start x : Nat} :
    checkedSum start (x :: xs) = (checkedAdd start x).bind fun n => checkedSum n xs := rfl

theorem checkedSum_eq_some {start sum : Nat} (h : checkedSum start xs = some sum) :
    sum = start + xs.sum ∧ (start < 2^64 → sum < 2^64) := by
  induction xs generalizing start with
  | nil =>
    cases h
    exact ⟨by simp,fun h => h⟩
  | cons x xs ih =>
    rw [checkedSum_cons] at h
    unfold checkedAdd at h
    by_cases hlt : start + x < 2^64
    · rw [if_pos hlt] at h
      obtain ⟨hsum,hbound⟩ := ih h
      have htotal := hbound hlt
      simp only [List.sum_cons]
      omega
    · rw [if_neg hlt] at h
      cases h

def Input.isKey : Input → Prop
  | .base _ => False
  | .key _ _ _ => True

structure InputsPassed (inputs : List Input) (before after : ValidatorState) (sum sum' : Nat) :
    Prop where
  keys : ∀ input ∈ inputs, input.isKey
  images : after.spentKeyImages =
    (inputs.filterMap Input.keyImage?).reverse ++ before.spentKeyImages
  nodup : before.spentKeyImages.Nodup → after.spentKeyImages.Nodup
  sum : checkedSum sum (inputs.filterMap Input.amount?) = some sum'

theorem validateInputsLoop_ok :
    ∀ {i : Nat} {seen : List Hash} {state state' : ValidatorState} {sum sum' : Nat},
      (validateInputsLoop atOnce txIndex inputs i seen state sum).2 = .ok (sum',state') →
      InputsPassed inputs state state' sum sum' := by
  induction inputs with
  | nil =>
    intro i seen state state' sum sum' h
    simp only [validateInputsLoop, pure_snd, Except.ok.injEq, Prod.mk.injEq] at h
    obtain ⟨rfl,rfl⟩ := h
    exact ⟨by simp,by simp,fun h => h,rfl⟩
  | cons input inputs ih =>
    intro i seen state state' sum sum' h
    cases input with
    | base index => cases h
    | key amount offsets image =>
      simp only [validateInputsLoop, bind_snd_ok_iff, lift_snd, refuseIf_ok_iff,
        orRefuse_ok_iff] at h
      obtain ⟨_,_,_,_,_,_,_,_,_,hnew,sum₁,hsum,hrest⟩ := h
      have hpass := ih hrest
      refine ⟨?_,?_,?_,?_⟩
      · intro x hx
        cases hx with
        | head => trivial
        | tail _ hx => exact hpass.keys x hx
      · rw [hpass.images]
        simp [Input.keyImage?]
      · intro hnodup
        exact hpass.nodup (List.nodup_cons.2 ⟨hnew,hnodup⟩)
      · simp only [List.filterMap_cons, Input.amount?, checkedSum_cons, hsum]
        exact hpass.sum

theorem validateOutputsLoop_ok {height txIndex : Nat} {outputs : List Output} {i sum sum' : Nat}
    (h : (validateOutputsLoop atOnce height txIndex outputs i sum).2 = .ok sum') :
    checkedSum sum (outputs.map Output.amount) = some sum' := by
  induction outputs generalizing i sum with
  | nil =>
    cases h
    rfl
  | cons output outputs ih =>
    simp only [validateOutputsLoop, bind_snd_ok_iff, lift_snd, refuseIf_ok_iff,
      orRefuse_ok_iff] at h
    obtain ⟨_,_,_,_,_,_,sum₁,hsum,hrest⟩ := h
    rw [List.map_cons, checkedSum_cons, hsum]
    exact ih hrest

theorem validateFee_ok {sumIn sumOut height : Nat} (h : validateFee tx blob sumIn sumOut height = .ok v) :
    sumOut ≤ sumIn ∧ v.fee = sumIn - sumOut := by
  unfold validateFee at h
  obtain ⟨_,_,h⟩ := bind_ok_iff.1 h
  obtain ⟨_,hle,h⟩ := bind_ok_iff.1 h
  have hle' : ¬ sumIn < sumOut := refuseIf_ok_iff.1 hle
  cases hfusion : isFusionTransaction tx.body blob.length height with
  | false =>
    simp only [hfusion, Bool.false_eq_true, if_false, bind_ok_iff, pure_ok_iff] at h
    obtain ⟨_,_,rfl⟩ := h
    exact ⟨by omega,rfl⟩
  | true =>
    simp only [hfusion, if_true, bind_ok_iff, pure_ok_iff] at h
    obtain ⟨_,_,rfl⟩ := h
    exact ⟨by omega,rfl⟩

def Transaction.fee (tx : Transaction) : Nat := tx.body.inputAmounts.sum -
  (tx.body.outputs.map Output.amount).sum

/-- What validation at `ctx` has established of a transaction. -/
structure TxPassed (cx : Crypto) (chain : ChainAccess) (ctx : TxContext) (tx : Transaction) :
    Prop where
  nonempty : tx.body.inputs ≠ []
  keys : ∀ input ∈ tx.body.inputs, input.isKey
  inputs : tx.body.sumInputs = some tx.body.inputAmounts.sum
  outputs : tx.body.sumOutputs = some (tx.body.outputs.map Output.amount).sum
  pays : (tx.body.outputs.map Output.amount).sum ≤ tx.body.inputAmounts.sum
  unlockTime : validateUnlockTime tx ctx.blockHeight ctx.blockTimestamp = .ok ⟨⟩
  rings : ctx.checkpoints.isInCheckpointZone (ctx.blockHeight+1) = false →
    ∀ i input, tx.body.inputs[i]? = some input → ∃ image ring signatures,
      gatherRing tx input i chain ctx = .ok (image,ring,signatures) ∧
        cx.checkRingSignature (tx.body.hash cx) image ring signatures = true

theorem gatherInputsExpensive_ok :
    ∀ {start : Nat} {u : PUnit},
      (gatherInputsExpensive cx tx chain ctx txIndex inputs start).2 = .ok u →
      (∀ c ∈ (gatherInputsExpensive cx tx chain ctx txIndex inputs start).1, c.verify cx = true) →
      ∀ i input, inputs[i]? = some input → ∃ image ring signatures,
        gatherRing tx input (start+i) chain ctx = .ok (image,ring,signatures) ∧
          cx.checkRingSignature (tx.body.hash cx) image ring signatures = true := by
  induction inputs with
  | nil =>
    intro start u _ _ i input hi
    simp at hi
  | cons first inputs ih =>
    intro start u h hverified
    rw [gatherInputsExpensive_cons] at h hverified
    obtain ⟨⟨image,ring,signatures⟩,hring,hrest⟩ := bind_snd_ok_iff.1 h
    obtain ⟨_,hlog,hlast⟩ := bind_snd_ok_iff.1 hrest
    rw [bind_fst_of_ok hring, bind_fst_of_ok hlog] at hverified
    simp only [lift_fst, log_fst, List.nil_append] at hverified
    intro i input hi
    cases i with
    | zero =>
      simp only [List.getElem?_cons_zero, Option.some.injEq] at hi
      subst hi
      have hsigned := hverified _ (List.mem_append_left _ List.mem_cons_self)
      exact ⟨image,ring,signatures,hring,hsigned⟩
    | succ i =>
      have hi' : inputs[i]? = some input := by simpa using hi
      have := ih hlast (fun c hc => hverified c (List.mem_append_right _ hc)) i input hi'
      rwa [Nat.add_right_comm, Nat.add_assoc] at this

theorem validateTransactionDeferred_ok {state state' : ValidatorState} {i : Nat}
    (h : (validateTransactionDeferred cx tx blob state chain ctx i).2 = .ok (v,state'))
    (hverified : ∀ c ∈ (validateTransactionDeferred cx tx blob state chain ctx i).1,
      c.verify cx = true) :
    TxPassed cx chain ctx tx ∧ v.fee = tx.fee ∧
      state'.spentKeyImages = tx.body.keyImages.reverse ++ state.spentKeyImages ∧
      (state.spentKeyImages.Nodup → state'.spentKeyImages.Nodup) := by
  rw [validateTransactionDeferred_def] at h hverified
  obtain ⟨passed,hbefore,h⟩ := bind_snd_ok_iff.1 h
  rw [bind_fst_of_ok hbefore] at hverified
  obtain ⟨_,hrings,h⟩ := bind_snd_ok_iff.1 h
  rw [bind_fst_of_ok hrings] at hverified
  rw [pure_snd, Except.ok.injEq] at h
  subst h
  unfold gatherBeforeRings at hbefore
  obtain ⟨_,_,hbefore⟩ := bind_snd_ok_iff.1 hbefore
  obtain ⟨⟨sumIn,state₁⟩,hinputs,hbefore⟩ := bind_snd_ok_iff.1 hbefore
  obtain ⟨sumOut,houtputs,hbefore⟩ := bind_snd_ok_iff.1 hbefore
  obtain ⟨v₁,hfee,hbefore⟩ := bind_snd_ok_iff.1 hbefore
  obtain ⟨_,_,hbefore⟩ := bind_snd_ok_iff.1 hbefore
  obtain ⟨⟨⟩,hlock,hbefore⟩ := bind_snd_ok_iff.1 hbefore
  obtain ⟨_,_,hbefore⟩ := bind_snd_ok_iff.1 hbefore
  obtain ⟨_,_,hbefore⟩ := bind_snd_ok_iff.1 hbefore
  obtain ⟨_,_,hbefore⟩ := bind_snd_ok_iff.1 hbefore
  simp only [pure_snd, Except.ok.injEq, Prod.mk.injEq] at hbefore
  obtain ⟨rfl,rfl⟩ := hbefore
  obtain ⟨_,hne,hloop⟩ := bind_snd_ok_iff.1 hinputs
  have hne' : ¬ tx.body.inputs = [] := refuseIf_ok_iff.1 hne
  have hpass := validateInputsLoop_ok hloop
  have hout := validateOutputsLoop_ok houtputs
  obtain ⟨hle,hfee⟩ := validateFee_ok hfee
  have hin := (checkedSum_eq_some hpass.sum).1
  have hout' := (checkedSum_eq_some hout).1
  rw [Nat.zero_add] at hin hout'
  subst hin hout'
  refine ⟨⟨hne',hpass.keys,hpass.sum,hout,hle,hlock,?_⟩,hfee,hpass.images,hpass.nodup⟩
  intro hzone j input hj
  rw [settleRings_def, if_neg (by simp [hzone])] at hrings
  have hmem : ∀ c ∈ (gatherInputsExpensive cx tx chain ctx i tx.body.inputs 0).1,
      c.verify cx = true := by
    intro c hc
    refine hverified c (List.mem_append_right _ (List.mem_append_left _ ?_))
    rwa [settleRings_def, if_neg (by simp [hzone])]
  have hring := gatherInputsExpensive_ok hrings hmem j input hj
  rwa [Nat.zero_add] at hring

theorem settleBatch_ok {batch : List PureCheck}
    (h : settleBatch cx block batch = .ok u) : ∀ c ∈ batch, c.verify cx = true := by
  unfold settleBatch at h
  cases hfirst : firstInvalid cx batch with
  | none =>
    unfold firstInvalid at hfirst
    rw [Option.map_eq_none_iff, List.find?_eq_none] at hfirst
    intro c hc
    have := hfirst c hc
    simpa using this
  | some r =>
    rw [hfirst] at h
    cases h

def totalFees (fee : Nat) (txs : List Transaction) : Nat :=
  txs.foldl (fun fee tx => saturate64 (fee + tx.fee)) fee

/-- What the loop over a block's transactions has established. -/
structure TxsPassed (cx : Crypto) (chain : ChainAccess) (ctx : TxContext)
    (txs : List Transaction) (before after : ValidatorState) : Prop where
  passed : ∀ tx ∈ txs, TxPassed cx chain ctx tx
  images : after.spentKeyImages =
    (txs.flatMap fun tx => tx.body.keyImages).reverse ++ before.spentKeyImages
  nodup : before.spentKeyImages.Nodup → after.spentKeyImages.Nodup

theorem validateTransactionsLoop_spec {txs : List (Transaction × Bytes)} :
    ∀ {i : Nat} {state state' : ValidatorState} {batch : List PureCheck} {fee fee' : Nat},
      validateTransactionsLoop cx block chain ctx txs i state batch fee = .ok (state',fee') →
      (∀ c ∈ batch, c.verify cx = true) ∧ TxsPassed cx chain ctx (txs.map Prod.fst) state state' ∧
        fee' = totalFees fee (txs.map Prod.fst) := by
  induction txs with
  | nil =>
    intro i state state' batch fee fee' h
    simp only [validateTransactionsLoop, bind_ok_iff, pure_ok_iff, Prod.mk.injEq] at h
    obtain ⟨_,hsettled,rfl,rfl⟩ := h
    exact ⟨settleBatch_ok hsettled,⟨by simp,by simp,fun h => h⟩,rfl⟩
  | cons entry txs ih =>
    obtain ⟨tx,blob⟩ := entry
    intro i state state' batch fee fee' h
    unfold validateTransactionsLoop at h
    simp only at h
    cases hout : (validateTransactionDeferred cx tx blob state chain ctx i).2 with
    | error e =>
      rw [hout] at h
      simp only [bind_ok_iff] at h
      obtain ⟨_,_,hfalse⟩ := h
      cases hfalse
    | ok r =>
      obtain ⟨v,state₁⟩ := r
      rw [hout] at h
      simp only at h
      -- the checks of this transaction are settled now or with a later batch
      have hsettled : (∀ c ∈ batch ++ (validateTransactionDeferred cx tx blob state chain ctx i).1,
          c.verify cx = true) ∧ TxsPassed cx chain ctx (txs.map Prod.fst) state₁ state' ∧
          fee' = totalFees (saturate64 (fee + v.fee)) (txs.map Prod.fst) := by
        split at h
        · obtain ⟨_,hbatch,hrest⟩ := bind_ok_iff.1 h
          exact ⟨settleBatch_ok hbatch,(ih hrest).2⟩
        · exact ih h
      obtain ⟨hverified,hrest,hfee⟩ := hsettled
      obtain ⟨hpassed,hfee₁,himages,hnodup⟩ := validateTransactionDeferred_ok hout
        (fun c hc => hverified c (List.mem_append_right _ hc))
      refine ⟨fun c hc => hverified c (List.mem_append_left _ hc),⟨?_,?_,?_⟩,?_⟩
      · intro tx' htx'
        cases htx' with
        | head => exact hpassed
        | tail _ htx' => exact hrest.passed tx' htx'
      · rw [hrest.images, himages]
        simp
      · intro h₀
        exact hrest.nodup (hnodup h₀)
      · rw [hfee, hfee₁]
        rfl

theorem parseTransactionBlobs_length
    (h : parseTransactionBlobs blobs = .ok txs) : txs.length = blobs.length := by
  induction blobs generalizing txs with
  | nil =>
    cases h
    rfl
  | cons blob blobs ih =>
    simp only [parseTransactionBlobs, bind_ok_iff, pure_ok_iff] at h
    obtain ⟨tx,_,rest,hrest,rfl⟩ := h
    simp [ih hrest]

theorem parseTransactions_length (h : parseTransactions block blobs = .ok txs) :
    txs.length = blobs.length ∧ blobs.length = block.transactionHashes.length := by
  obtain ⟨hlen,hparsed⟩ := parseTransactions_ok h
  exact ⟨parseTransactionBlobs_length hparsed,hlen⟩

theorem checkNamedHashes_ok {hashes : List Hash} (hlen : txs.length = hashes.length)
    (h : checkNamedHashes cx txs hashes = .ok u) : suppliedHashes cx txs = .ok hashes := by
  induction txs generalizing hashes with
  | nil =>
    cases hashes with
    | nil => rfl
    | cons _ _ => simp at hlen
  | cons tx txs ih =>
    cases hashes with
    | nil => simp at hlen
    | cons named hashes =>
      simp only [checkNamedHashes, bind_ok_iff, refuseIf_ok_iff, ne_eq, not_not] at h
      obtain ⟨hash,hhash,_,rfl,hrest⟩ := h
      have hsupplied := ih (by simpa using hlen) hrest
      simp [suppliedHashes, hhash, hsupplied, bind, Except.bind, pure, Except.pure]

theorem checkTransactionList_ok {claimed : Nat} (hlen : txs.length = block.transactionHashes.length)
    (h : checkTransactionList cx block txs claimed true = .ok u) :
    suppliedHashes cx txs = .ok block.transactionHashes := by
  unfold checkTransactionList at h
  split at h
  · rw [if_neg (by simp)] at h
    exact checkNamedHashes_ok hlen h
  · simp only [bind_ok_iff, refuseIf_ok_iff, ne_eq, not_not] at h
    obtain ⟨_,_,supplied,hsupplied,_,_,_,_,heq⟩ := h
    rw [hsupplied, heq]

section

variable {cx : Crypto} {s : ChainState} {b : MainBlock cx} {prev d : Nat}

section

variable (h : s.checkMain cx b.block b.raw.transactions b.info.blockHash prev = .ok (b.accepted d))
include h

/-- The transactions of an accepted block, and the reward that follows from their
fees. -/
theorem checkMain_transactions :
    TxsPassed cx s.access (s.txContext b.block prev) b.transactions .new ⟨b.images⟩ ∧
      ∃ head parent reward,
        s.checkHead cx (.mainChain prev) b.block b.raw.transactions prev = .ok head ∧
        head.transactions = b.transactions ∧
        s.checkReward (.mainChain prev) b.block head prev (totalFees 0 b.transactions) =
          .ok (parent,reward) ∧
        nextInfo parent reward b.block b.info.blockHash head = .ok b.info := by
  obtain ⟨head,v,fee,parent,reward,info,hhead,_,hloop,hreward,hinfo,heq⟩ := checkMain_ok_iff.1 h
  obtain ⟨txs,_,_,_,hparsed,_,_,_,_,_,hheadEq⟩ := checkHead_ok_iff.1 hhead
  have htxs : txs = b.transactions := by
    have := hparsed.symm.trans b.transactionsParsed
    cases this
    rfl
  have hheadTxs : head.transactions = b.transactions := by rw [hheadEq, htxs]
  simp only [MainBlock.accepted, Accepted.mk.injEq] at heq
  obtain ⟨_,hinfoEq,himages,_⟩ := heq
  obtain ⟨_,hpassed,hfee⟩ := validateTransactionsLoop_spec hloop
  have hzip : (head.transactions.zip b.raw.transactions).map Prod.fst = b.transactions := by
    rw [hheadTxs]
    exact List.map_fst_zip (parseTransactions_length b.transactionsParsed).1.le
  rw [hzip] at hpassed hfee
  subst himages hinfoEq hfee
  exact ⟨hpassed,head,parent,reward,hhead,hheadTxs,hreward,hinfo⟩

theorem checkMain_images :
    b.images = (b.transactions.flatMap fun tx => tx.body.keyImages).reverse ∧ b.images.Nodup := by
  have hpassed := (checkMain_transactions h).1
  exact ⟨by simpa [ValidatorState.new] using hpassed.images,hpassed.nodup (by simp [ValidatorState.new])⟩

end

theorem checkMain_named (hstrict : s.strictTransactionList = true)
    (h : s.checkMain cx b.block b.raw.transactions b.info.blockHash prev = .ok (b.accepted d)) :
    suppliedHashes cx b.transactions = .ok b.block.transactionHashes := by
  obtain ⟨head,_,_,_,_,_,hhead,_⟩ := checkMain_ok_iff.1 h
  obtain ⟨txs,_,_,_,hparsed,_,_,_,_,hlist,_⟩ := checkHead_ok_iff.1 hhead
  have htxs := hparsed.symm.trans b.transactionsParsed
  cases htxs
  obtain ⟨hlen,hlen'⟩ := parseTransactions_length hparsed
  rw [hstrict] at hlist
  exact checkTransactionList_ok (hlen.trans hlen') hlist

end

end Wrkz
