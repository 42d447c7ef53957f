import Wrkz.Library.Settling
import Wrkz.Library.SharedSearch
import Wrkz.Chain.EarlyExit
import Wrkz.Chain.Sample

/-!
The batched validation of a block's transactions is the sequential one. Here a read of the
chain may fail, the batch is settled by any number of threads and may be settled early at
any size.
-/

set_option autoImplicit false

namespace Wrkz

open Library Logged List

inductive TxError where
  | rule (r : TxRule)
  | chain (e : ChainError)
  deriving DecidableEq, Repr

/-- Roughly what a check costs, in tenths of a scalar multiplication. -/
def PureCheck.weight : PureCheck → Nat
  | .keyImageDomain _ _ _ => 10
  | .outputKey _ _ _ => 1
  | .txPow _ _ _ => 57
  | .ring r => 20*max r.ring.length 1

def parallelThreshold : Nat := 4

def workPerWorker : Nat := 60

def parallelWorkThreshold : Nat := 2*workPerWorker

/-- What `first_invalid_check` may return: a small batch is gone through in order, a large
one is searched by several workers, in any interleaving. -/
def FirstInvalidCheck (cx : Crypto) (threads : Nat) (checks : List PureCheck)
    (found : Option Nat) : Prop :=
  let work := (checks.map PureCheck.weight).sum
  let workers := min (min threads (work / workPerWorker)) (checks.length / 2)
  if checks.length < parallelThreshold ∨ workers < 2 ∨ work < parallelWorkThreshold then
    found = checks.findIdx? fun c => c.verify cx = false
  else
    let piece := max ((checks.length + (workers*4 - 1)) / (workers*4)) 1
    ∃ p, SharedSearch.Runs checks.length piece
        (fun i => (checks[i]?).any fun c => c.verify cx = false) (.start workers) p ∧
      p.Finished ∧ p.lowest = found

def namedFailure (block : BlockTemplate) (i : Nat) : TxError → ChainError
  | .rule r => .rule (.transaction (block.transactionHashes.getD i default) i r)
  | .chain e => e

def batchVerdict (block : BlockTemplate) (failed : Option PureCheck) : Except ChainError PUnit.{1} :=
  match failed with
  | none => pure ⟨⟩
  | some c => .error (namedFailure block c.failure.1 (.rule c.failure.2))

/-- The transaction loop of `add_to_main`. `settle` is the index `first_invalid` comes back
with; the batch is settled early at `limit` members. -/
def validateTransactionsBatched (cx : Crypto) (settle : List PureCheck → Option Nat) (limit : Nat)
    (block : BlockTemplate) (reads : ChainReads ChainError) (ctx : TxContext) :
    List (Transaction × Bytes) → Nat → ValidatorState → List PureCheck → Nat →
      Except ChainError (ValidatorState × Nat)
  | [], _, state, batch, fee => do
    batchVerdict block ((settle batch).bind (batch[·]?))
    pure (state,fee)
  | (tx,blob) :: rest, i, state, batch, fee =>
    let outcome := reads.validateTransactionDeferred TxError.rule TxError.chain cx tx ctx blob state i
    let batch := batch ++ outcome.1
    match outcome.2 with
    | .error e => do
      batchVerdict block ((settle batch).bind (batch[·]?))
      .error (namedFailure block i e)
    | .ok (v,state) =>
      let fee := saturate64 (fee + v.fee)
      if limit ≤ (batch.map PureCheck.members).sum then do
        batchVerdict block ((settle batch).bind (batch[·]?))
        validateTransactionsBatched cx settle limit block reads ctx rest (i+1) state [] fee
      else validateTransactionsBatched cx settle limit block reads ctx rest (i+1) state batch fee

/-- The transactions one after the other, each with every check on the spot: the state and
the fees, or the first transaction that fails and how. -/
def validateInOrder (cx : Crypto) (reads : ChainReads ChainError) (ctx : TxContext) :
    List (Transaction × Bytes) → Nat → ValidatorState → Nat →
      Except (Nat × TxError) (ValidatorState × Nat)
  | [], _, state, fee => .ok (state,fee)
  | (tx,blob) :: rest, i, state, fee =>
    match reads.validateTransactionEarlyExit TxError.rule TxError.chain cx tx ctx blob state with
    | .error e => .error (i,e)
    | .ok (v,state) => validateInOrder cx reads ctx rest (i+1) state (saturate64 (fee + v.fee))

def PureCheck.fault (cx : Crypto) (c : PureCheck) : Option TxRule :=
  if c.verify cx = false then some c.failure.2 else none

section

variable {cx : Crypto} {tx : Transaction} {blob : Bytes} {state : ValidatorState}
  {ctx : TxContext} {reads : ChainReads ChainError} {block : BlockTemplate}

theorem settle_log_fault (c : PureCheck) :
    (log [c] : TxStep PUnit.{1}).settle (PureCheck.fault cx) =
      refuseIf (c.verify cx = false) c.failure.2 := by
  rw [settle_log]
  unfold PureCheck.fault refuseIf
  split <;> rfl

theorem settle_validateInputsLoop (txIndex : Nat) :
    ∀ (inputs : List Input) (inputIndex : Nat) (seen : List Hash) (state : ValidatorState) (sum : Nat),
      (validateInputsLoop none txIndex inputs inputIndex seen state sum).settle (PureCheck.fault cx) =
        (validateInputsLoop (some cx) 0 inputs inputIndex seen state sum).2
  | [], _, _, _, _ => rfl
  | .base _ :: _, _, _, _, _ => rfl
  | .key amount keyOffsets keyImage :: rest, inputIndex, seen, state, sum => by
    unfold validateInputsLoop
    simp only [settleCheck, settle_bind, settle_lift, settle_log_fault,
      settle_validateInputsLoop txIndex rest, bind_snd, lift_snd]
    rfl

theorem settle_validateOutputsLoop (height txIndex : Nat) :
    ∀ (outputs : List Output) (outputIndex sum : Nat),
      (validateOutputsLoop none height txIndex outputs outputIndex sum).settle (PureCheck.fault cx) =
        (validateOutputsLoop (some cx) height 0 outputs outputIndex sum).2
  | [], _, _ => rfl
  | output :: rest, outputIndex, sum => by
    unfold validateOutputsLoop
    simp only [settleCheck, settle_bind, settle_lift, settle_log_fault,
      settle_validateOutputsLoop height txIndex rest, bind_snd, lift_snd]
    rfl

theorem settle_settlePow (v : TxValidation) (txIndex : Nat) :
    (settlePow cx tx v ctx txIndex).settle (PureCheck.fault cx) =
      if powApplies ctx then validateTransactionPow cx tx v.fee v.isFusion ctx.blockHeight
      else pure ⟨⟩ := by
  unfold settlePow
  split
  · split
    · rfl
    · unfold gatherTransactionPow validateTransactionPow
      split
      · rename_i hwaived
        rw [refuseIf, if_neg fun h => h.2 hwaived]
        rfl
      · rename_i hasked
        rw [settle_log_fault]
        unfold refuseIf
        simp only [hasked, not_false_eq_true, and_true]
        rfl
  · rfl

/-- The checks before the rings, gathered and settled, are the checks on the spot. -/
theorem settle_gatherBeforeRings (txIndex : Nat) :
    (gatherBeforeRings cx tx blob state ctx txIndex).settle (PureCheck.fault cx) =
      validateBeforeRings cx tx blob state ctx := by
  unfold gatherBeforeRings validateBeforeRings validateInputs validateOutputs
  simp only [settle_bind, settle_lift, settle_pure, settle_settlePow,
    settle_validateInputsLoop, settle_validateOutputsLoop, bind_snd, lift_snd]
  by_cases hpow : powApplies ctx
  · simp only [if_pos hpow]
    rfl
  · simp only [if_neg hpow]
    rfl

theorem settle_gatherInputsExpensive (txIndex : Nat) :
    ∀ (inputs : List Input) (inputIndex : Nat),
      (reads.gatherInputsExpensive TxError.rule TxError.chain cx tx ctx txIndex inputs inputIndex).settle
          (fun c => (c.fault cx).map TxError.rule) =
        reads.checkRings TxError.rule TxError.chain cx tx ctx inputs inputIndex
  | [], _ => rfl
  | input :: rest, inputIndex => by
    have hlog (c : PureCheck) : (log [c] : Logged PureCheck TxError PUnit.{1}).settle
        (fun c => (c.fault cx).map TxError.rule) =
          refuseIf (c.verify cx = false) (TxError.rule c.failure.2) := by
      rw [settle_log]
      unfold PureCheck.fault refuseIf
      split <;> rfl
    unfold ChainReads.gatherInputsExpensive ChainReads.checkRings
    simp only [settle_bind, settle_lift, hlog, settle_gatherInputsExpensive txIndex rest]
    rfl

/-- A transaction of a batch of its own fails where the sequential validator stops. -/
theorem settle_validateTransactionDeferred (txIndex : Nat) :
    (reads.validateTransactionDeferred TxError.rule TxError.chain cx tx ctx blob state txIndex).settle
        (fun c => (c.fault cx).map TxError.rule) =
      reads.validateTransactionEarlyExit TxError.rule TxError.chain cx tx ctx blob state := by
  unfold ChainReads.validateTransactionDeferred ChainReads.validateTransactionEarlyExit
  simp only [ChainReads.settleRings, settle_bind, settle_mapError, settle_gatherBeforeRings,
    settle_ite, settle_gatherInputsExpensive, settle_pure]
  split <;> rfl

theorem logs_validateInputsLoop (txIndex : Nat) :
    ∀ (inputs : List Input) (inputIndex : Nat) (seen : List Hash) (state : ValidatorState) (sum : Nat),
      Logged.Logs (fun c => c.failure.1 = txIndex)
        (validateInputsLoop none txIndex inputs inputIndex seen state sum)
  | [], _, _, _, _ => .pure _
  | .base _ :: _, _, _, _, _ => .lift _
  | .key _ _ _ :: rest, _, _, _, _ => by
    unfold validateInputsLoop
    refine .bind (.lift _) fun _ => .bind (.lift _) fun _ => .bind (.log rfl) fun _ => ?_
    refine .bind (.lift _) fun _ => .bind (.lift _) fun _ => .bind (.lift _) fun _ => ?_
    exact logs_validateInputsLoop txIndex rest _ _ _ _

theorem logs_validateOutputsLoop (height txIndex : Nat) :
    ∀ (outputs : List Output) (outputIndex sum : Nat),
      Logged.Logs (fun c => c.failure.1 = txIndex)
        (validateOutputsLoop none height txIndex outputs outputIndex sum)
  | [], _, _ => .pure _
  | _ :: rest, _, _ => by
    unfold validateOutputsLoop
    refine .bind (.lift _) fun _ => .bind (.lift _) fun _ => .bind (.log rfl) fun _ => ?_
    exact .bind (.lift _) fun _ => logs_validateOutputsLoop height txIndex rest _ _

theorem logs_gatherInputsExpensive (txIndex : Nat) :
    ∀ (inputs : List Input) (inputIndex : Nat),
      Logged.Logs (fun c => c.failure.1 = txIndex)
        (reads.gatherInputsExpensive TxError.rule TxError.chain cx tx ctx txIndex inputs inputIndex)
  | [], _ => .pure _
  | _ :: rest, _ => by
    unfold ChainReads.gatherInputsExpensive
    refine .bind (.lift _) fun _ => .bind (.log rfl) fun _ => ?_
    exact logs_gatherInputsExpensive txIndex rest _

theorem logs_validateTransactionDeferred (txIndex : Nat) :
    Logged.Logs (fun c => c.failure.1 = txIndex)
      (reads.validateTransactionDeferred TxError.rule TxError.chain cx tx ctx blob state txIndex) := by
  have hpow (v : TxValidation) :
      Logged.Logs (fun c => c.failure.1 = txIndex) (settlePow cx tx v ctx txIndex) := by
    refine .ite (fun _ => .ite (fun _ => .lift _) fun _ => ?_) fun _ => .pure _
    exact .ite (fun _ => .pure _) fun _ => .log rfl
  refine .bind (.mapError ?_ _) fun passed =>
    .bind (.ite (fun _ => .pure _) fun _ => ?_) fun _ => .pure _
  · refine .bind (.lift _) fun _ => .bind ?_ fun _ => .bind ?_ fun _ => .bind (.lift _) fun _ => ?_
    · exact .bind (.lift _) fun _ => logs_validateInputsLoop txIndex _ _ _ _ _
    · exact logs_validateOutputsLoop _ txIndex _ _ _
    · refine .bind (.lift _) fun _ => .bind (.lift _) fun _ => .bind (.lift _) fun _ => ?_
      exact .bind (.lift _) fun _ => .bind (hpow _) fun _ => .pure _
  · exact logs_gatherInputsExpensive txIndex _ _

variable {settle : List PureCheck → Option Nat} {threads : Nat} {α : Type} {xs ys : List α}
  {q : α → Bool}

theorem find?_range_any (q : α → Bool) (xs : List α) :
    (range xs.length).find? (fun i => (xs[i]?).any q) = xs.findIdx? q := by
  refine Option.ext fun f => ?_
  rw [find?_range_eq_some, findIdx?_eq_some_iff_getElem]
  constructor
  · rintro ⟨hf,hmem,hlow⟩
    have hlt := mem_range.1 hmem
    refine ⟨hlt,by simpa [getElem?_eq_getElem hlt] using hf,fun j hj => ?_⟩
    have hj' := hlow j hj
    simpa [getElem?_eq_getElem (lt_trans hj hlt)] using hj'
  · rintro ⟨hlt,hf,hlow⟩
    refine ⟨by simpa [getElem?_eq_getElem hlt] using hf,mem_range.2 hlt,fun j hj => ?_⟩
    have hj' := hlow j hj
    simpa [getElem?_eq_getElem (lt_trans hj hlt)] using hj'

/-- Any number of threads comes back with the first check that does not verify. -/
theorem FirstInvalidCheck.eq {checks : List PureCheck} {found : Option Nat}
    (h : FirstInvalidCheck cx threads checks found) :
    found = checks.findIdx? fun c => c.verify cx = false := by
  unfold FirstInvalidCheck at h
  dsimp only at h
  split at h
  · exact h
  · rename_i hlarge
    obtain ⟨p,hruns,hfin,rfl⟩ := h
    have hinv := hruns.inv (SharedSearch.Inv.start _)
    have hlen := hruns.length_eq
    rw [SharedSearch.Pool.start, length_replicate] at hlen
    rw [hinv.lowest_eq hfin (length_pos_iff.1 (by omega)), find?_range_any]

theorem FirstInvalidCheck.exists (threads : Nat) (checks : List PureCheck) :
    ∃ found, FirstInvalidCheck cx threads checks found := by
  unfold FirstInvalidCheck
  dsimp only
  split
  · exact ⟨_,rfl⟩
  · obtain ⟨p,hruns,hfin⟩ := SharedSearch.exists_finished
      (lt_of_lt_of_le Nat.one_pos (le_max_right _ _)) (SharedSearch.Inv.start _)
    exact ⟨_,p,hruns,hfin,rfl⟩

theorem FirstInvalidCheck.one (cx : Crypto) (checks : List PureCheck) :
    FirstInvalidCheck cx 1 checks (checks.findIdx? fun c => c.verify cx = false) := by
  unfold FirstInvalidCheck
  dsimp only
  rw [if_pos (.inr (.inl (by omega)))]

theorem settled_eq
    (hsettle : ∀ batch, FirstInvalidCheck cx threads batch (settle batch)) (batch : List PureCheck) :
    (settle batch).bind (batch[·]?) = batch.find? fun c => c.verify cx = false := by
  rw [(hsettle batch).eq, find?_eq_bind_findIdx?_getElem?]

theorem findSome?_fault (batch : List PureCheck) :
    batch.findSome? (fun c => (c.fault cx).map TxError.rule) =
      (batch.find? fun c => c.verify cx = false).map fun c => TxError.rule c.failure.2 := by
  induction batch with
  | nil => rfl
  | cons c cs ih =>
    rw [findSome?_cons, find?_cons, ih]
    by_cases hc : c.verify cx = false
    · simp [PureCheck.fault, hc]
    · simp [PureCheck.fault, hc]

theorem find?_append_of_some {c : α} (h : xs.find? q = some c) : (xs ++ ys).find? q = some c := by
  rw [find?_append, h]
  rfl

theorem find?_append_of_none (h : xs.find? q = none) : (xs ++ ys).find? q = ys.find? q := by
  rw [find?_append, h]
  rfl

/-- The loop with a batch carried along: a failure in the batch comes first, and without one
the loop goes on as the sequential validator does. -/
theorem validateTransactionsBatched_eq
    (hsettle : ∀ batch, FirstInvalidCheck cx threads batch (settle batch)) (limit : Nat) :
    ∀ (txs : List (Transaction × Bytes)) (i : Nat) (state : ValidatorState) (batch : List PureCheck)
      (fee : Nat), validateTransactionsBatched cx settle limit block reads ctx txs i state batch fee =
        ((batch.find? fun c => c.verify cx = false).elim
          ((validateInOrder cx reads ctx txs i state fee).mapError fun e => namedFailure block e.1 e.2)
          fun c => .error (namedFailure block c.failure.1 (.rule c.failure.2)))
  | [], i, state, batch, fee => by
    unfold validateTransactionsBatched validateInOrder
    rw [settled_eq hsettle]
    cases batch.find? fun c => c.verify cx = false <;> rfl
  | (tx,blob) :: rest, i, state, batch, fee => by
    have ih := validateTransactionsBatched_eq hsettle limit rest
    have hone : _ = reads.validateTransactionEarlyExit TxError.rule TxError.chain cx tx ctx blob state :=
      settle_validateTransactionDeferred i
    have hlogs : Logged.Logs (fun c => c.failure.1 = i)
        (reads.validateTransactionDeferred TxError.rule TxError.chain cx tx ctx blob state i) :=
      logs_validateTransactionDeferred i
    unfold Logged.settle at hone
    rw [findSome?_fault] at hone
    unfold validateTransactionsBatched validateInOrder
    dsimp only
    rw [← hone]
    generalize reads.validateTransactionDeferred TxError.rule TxError.chain cx tx ctx blob state i =
      outcome at hlogs ⊢
    obtain ⟨checks,verdict⟩ := outcome
    simp only [settled_eq hsettle, ih]
    cases hbatch : batch.find? fun c => c.verify cx = false with
    | some c =>
      -- a failure carried along is what every way on ends in
      rw [find?_append_of_some hbatch]
      cases verdict with
      | error e => rfl
      | ok r => dsimp only; split <;> rfl
    | none =>
      rw [find?_append_of_none hbatch]
      cases hown : checks.find? fun c => c.verify cx = false with
      | some c =>
        have hindex : c.failure.1 = i := hlogs c (mem_of_find?_eq_some hown)
        cases verdict with
        | error e => simp [batchVerdict, hindex, Except.mapError, bind, Except.bind]
        | ok r =>
          dsimp only
          split <;> simp [batchVerdict, hindex, Except.mapError, bind, Except.bind]
      | none =>
        cases verdict with
        | error e => rfl
        | ok r => dsimp only; split <;> rfl

section

variable {ε δ : Type} {rule : TxRule → δ} {failed : ε → δ} {chain : ChainAccess}

/-- Where no read fails, only rules are broken. -/
theorem ChainReads.gatherRing_reads (input : Input) (inputIndex : Nat) :
    chain.reads.gatherRing rule failed tx ctx input inputIndex =
      (Wrkz.gatherRing tx input inputIndex chain ctx).mapError rule := by
  cases input with
  | base index => rfl
  | key amount offsets image =>
    unfold Wrkz.gatherRing gatherRing
    simp only [mapError_bind, mapError_refuseIf, mapError_orRefuse, mapError_mapError]
    rfl

theorem ChainReads.gatherInputsExpensive_reads (txIndex : Nat) :
    ∀ (inputs : List Input) (inputIndex : Nat),
      chain.reads.gatherInputsExpensive rule failed cx tx ctx txIndex inputs inputIndex =
        (Wrkz.gatherInputsExpensive cx tx chain ctx txIndex inputs inputIndex).mapError rule
  | [], _ => rfl
  | input :: rest, inputIndex => by
    unfold gatherInputsExpensive
    rw [gatherInputsExpensive_cons]
    simp only [gatherRing_reads, gatherInputsExpensive_reads txIndex rest, bind_mapError]
    rfl

theorem ChainReads.validateTransactionDeferred_reads (txIndex : Nat) :
    chain.reads.validateTransactionDeferred rule failed cx tx ctx blob state txIndex =
      (Wrkz.validateTransactionDeferred cx tx blob state chain ctx txIndex).mapError rule := by
  unfold validateTransactionDeferred
  rw [validateTransactionDeferred_def]
  simp only [settleRings, settleRings_def, bind_mapError, mapError_ite, gatherInputsExpensive_reads]
  rfl

end

/-- The loop of the chain model is the batched one, settled in order. -/
theorem validateTransactionsLoop_eq_batched (chain : ChainAccess) :
    ∀ (txs : List (Transaction × Bytes)) (i : Nat) (state : ValidatorState) (batch : List PureCheck)
      (fee : Nat), validateTransactionsLoop cx block chain ctx txs i state batch fee =
        validateTransactionsBatched cx (fun b => b.findIdx? fun c => c.verify cx = false)
          ringBatchMemberLimit block chain.reads ctx txs i state batch fee := by
  have hsettle (batch : List PureCheck) : settleBatch cx block batch =
      batchVerdict block ((batch.findIdx? fun c => c.verify cx = false).bind (batch[·]?)) := by
    rw [← find?_eq_bind_findIdx?_getElem?]
    unfold settleBatch firstInvalid
    cases batch.find? fun c => c.verify cx = false <;> rfl
  intro txs
  induction txs with
  | nil =>
    intro i state batch fee
    unfold validateTransactionsLoop validateTransactionsBatched
    rw [hsettle]
  | cons entry rest ih =>
    intro i state batch fee
    unfold validateTransactionsLoop validateTransactionsBatched
    rw [ChainReads.validateTransactionDeferred_reads]
    simp only [hsettle, ih]
    generalize validateTransactionDeferred cx entry.1 entry.2 state chain ctx i = outcome
    obtain ⟨checks,verdict⟩ := outcome
    cases verdict <;> rfl

end

/-- Whatever the threads and the member limit, the settling of a batch ends, and the loop
accepts what the sequential validator accepts, with the same fees, and fails with the same
transaction and error. -/
theorem batched_is_sequential (cx : Crypto) (threads limit : Nat) (block : BlockTemplate)
    (reads : ChainReads ChainError) (ctx : TxContext) (txs : List (Transaction × Bytes)) :
    (∀ batch, ∃ found, FirstInvalidCheck cx threads batch found) ∧
    ∀ settle : List PureCheck → Option Nat,
      (∀ batch, FirstInvalidCheck cx threads batch (settle batch)) →
      validateTransactionsBatched cx settle limit block reads ctx txs 0 .new [] 0 =
        (validateInOrder cx reads ctx txs 0 .new 0).mapError fun e => namedFailure block e.1 e.2 :=
  ⟨FirstInvalidCheck.exists threads,fun _ hsettle =>
    validateTransactionsBatched_eq hsettle limit txs 0 .new [] 0⟩

def sampleFaultyReads : ChainReads ChainError where
  keyImageSpent image _ := if image = mixHash [4] then .error (.corrupt "read failed") else .ok false
  keyOutputs _ indexes := .ok (indexes.map fun i => some ⟨mixHash [2],0,mixHash [5],i,0⟩)
  topBlockTimestamp := 0
  now := 0

def sampleSpends : List (Transaction × Bytes) :=
  [mixHash [3],mixHash [4]].map fun image =>
    (sampleSpend 10000 0 100 image,sampleBlob (sampleSpend 10000 0 100 image))

def forgedCrypto : Crypto := { sampleCrypto with checkRingSignature := fun _ _ _ _ => false }

def sampleSpendsBlock : BlockTemplate :=
  sampleBlock 1 60 5 sampleGenesisId (sampleSpends.map fun t => sampleTxId t.1)

/-- With good signatures the failed read of the second transaction is reported, with forged
ones the signature of the first, which comes before it. -/
theorem batched_is_sequential_sample :
    validateTransactionsBatched sampleCrypto
        (fun b => b.findIdx? fun c => c.verify sampleCrypto = false) 1000 sampleSpendsBlock
        sampleFaultyReads ⟨0,10000,0,false,.none⟩ sampleSpends 0 .new [] 0 =
      .error (.corrupt "read failed") ∧
    validateTransactionsBatched forgedCrypto
        (fun b => b.findIdx? fun c => c.verify forgedCrypto = false) 1 sampleSpendsBlock
        sampleFaultyReads ⟨0,10000,0,false,.none⟩ sampleSpends 0 .new [] 0 =
      .error (namedFailure sampleSpendsBlock 0 (.rule (.inputInvalidSignatures 0))) := by
  have hgood := (batched_is_sequential sampleCrypto 1 1000 sampleSpendsBlock sampleFaultyReads
    ⟨0,10000,0,false,.none⟩ sampleSpends).2 _ (FirstInvalidCheck.one sampleCrypto)
  have hforged := (batched_is_sequential forgedCrypto 1 1 sampleSpendsBlock sampleFaultyReads
    ⟨0,10000,0,false,.none⟩ sampleSpends).2 _ (FirstInvalidCheck.one forgedCrypto)
  rw [hgood, hforged]
  have hread : validateInOrder sampleCrypto sampleFaultyReads ⟨0,10000,0,false,.none⟩ sampleSpends
      0 .new 0 = .error (1,.chain (.corrupt "read failed")) := by decide +kernel
  have hforge : validateInOrder forgedCrypto sampleFaultyReads ⟨0,10000,0,false,.none⟩ sampleSpends
      0 .new 0 = .error (0,.rule (.inputInvalidSignatures 0)) := by decide +kernel
  rw [hread, hforge]
  exact ⟨rfl,rfl⟩

end Wrkz
