import Wrkz.Chain.State
import Wrkz.Library.NumberedLog

/-!
Writing a block to the store and taking it off again. A block is one write
batch; an unwind reads the per-block records, or rebuilds the output pairs from
the body when their record has been dropped.
-/

set_option autoImplicit false

namespace Wrkz

open Library

/-- A step on the chain state that keeps what it has written when it fails. -/
abbrev ChainM := EStateM ChainError ChainState

def liftExcept {α : Type} (x : Except ChainError α) : ChainM α := fun s =>
  match x with
  | .ok a => .ok a s
  | .error e => .error e s

theorem liftExcept_ok {α : Type} (a : α) (s : ChainState) :
    liftExcept (.ok a : Except ChainError α) s = .ok a s := rfl

theorem liftExcept_error {α : Type} (e : ChainError) (s : ChainState) :
    liftExcept (.error e : Except ChainError α) s = .error e s := rfl

def txOutputs (index : Nat) (tx : Transaction) (txHash : Hash) : List (Nat × OutputRecord) :=
  tx.body.outputs.zipIdx.map fun (o,i) =>
    (o.amount, ⟨o.key,tx.body.unlockTime,txHash,i % 2^16,index⟩)

def blockOutputList (index : Nat) (block : BlockTemplate) (coinbaseHash : Hash)
    (transactions : List Transaction) : List (Nat × OutputRecord) :=
  txOutputs index block.baseTransaction coinbaseHash ++
    (transactions.zip block.transactionHashes).flatMap fun (tx,h) => txOutputs index tx h

def paymentRefs (block : BlockTemplate) (transactions : List Transaction) : List (Hash × Hash) :=
  (transactions.zip block.transactionHashes).filterMap fun (tx,h) =>
    match (parseExtraWallet tx.body.extra).paymentId with
    | some (.long id) => some (id,h)
    | _ => none

def sortHashes (hs : List Hash) : List Hash :=
  hs.insertionSort (fun a b => b.lt a = false)

def outputOps (assigned : List ((Nat × Nat) × OutputRecord) × AList (fun _ : Nat => Nat)) :
    List WriteOp :=
  assigned.1.map (fun e => ⟨.output e.1.1 e.1.2, some e.2⟩) ++
    assigned.2.entries.map (fun c => ⟨.outputCount c.1, some c.2⟩)

def keyImageOps (index : Nat) (images : List Hash) : List WriteOp :=
  images.map (fun image => ⟨.keyImage image, some index⟩) ++
    if images = [] then [] else [⟨.blockKeyImages index, some images⟩]

def blockOps (index : Nat) (info : BlockInfo) (txHashes : List Hash) (refs : List (Nat × Nat)) :
    List WriteOp :=
  [⟨.blockInfo index, some info⟩, ⟨.hashToIndex info.blockHash, some index⟩,
    ⟨.blockTxHashes index, some txHashes⟩] ++
    txHashes.map (fun h => ⟨.transactionIndex h, some index⟩) ++
    [⟨.blockOutputs index, some refs⟩]

def paymentOps (index : Nat) (refs : List (Hash × Hash))
    (assigned : List ((Hash × Nat) × Hash) × AList (fun _ : Hash => Nat)) : List WriteOp :=
  if refs = [] then []
  else
    assigned.1.map (fun e => ⟨.paymentIdEntry e.1.1 e.1.2, some e.2⟩) ++
      assigned.2.entries.map (fun c => ⟨.paymentIdCount c.1, some c.2⟩) ++
      [⟨.blockPaymentIds index, some refs⟩]

def bodyOps (cfg : Config) (index : Nat) (raw : RawBlock) : List WriteOp :=
  (if cfg.keepsBody index index then [⟨.rawBlock index, some raw⟩] else []) ++
    (match cfg.pruneDepth with
      | some depth => if depth ≤ index then [⟨.rawBlock (index - depth), none⟩] else []
      | none => []) ++
    (if cfg.unwindHistory ≤ index then [⟨.blockOutputs (index - cfg.unwindHistory), none⟩] else [])

def metaOps (index : Nat) : List WriteOp :=
  [⟨.metaVersion, some stateSchemaVersion⟩, ⟨.metaTip, some index⟩]

namespace ChainState

variable (s : ChainState)

/-- The batch of `push_block`. -/
def pushOps (index : Nat) (block : BlockTemplate) (raw : RawBlock) (coinbaseHash : Hash)
    (a : Accepted) : List WriteOp :=
  let assigned := assign s.outputCountForAmount ∅
    (blockOutputList index block coinbaseHash a.transactions)
  let refs := paymentRefs block a.transactions
  outputOps assigned ++
    keyImageOps index (sortHashes a.validatorState.spentKeyImages) ++
    blockOps index a.info (coinbaseHash :: block.transactionHashes) (assigned.1.map Prod.fst) ++
    paymentOps index refs (assign s.paymentIdEntryCount ∅ refs) ++
    bodyOps s.cfg index raw ++ metaOps index

/-- `max` of the median of the last sizes and the zone of the next version. -/
def medianSizeAtTip : Except ChainError Nat :=
  match s.tip with
  | none => .ok (fullRewardZone (blockMajorVersionForIndex 0))
  | some tip => do
    let median ← s.rewardSizeMedian (.mainChain tip) tip
    pure (max median (fullRewardZone (blockMajorVersionForIndex (tip+1))))

def updateBlockMedianSize : ChainM PUnit.{1} := fun s =>
  match s.medianSizeAtTip with
  | .ok median => .ok ⟨⟩ { s with blockMedianSize := median }
  | .error e => .error e s

def pushBlock (cx : Crypto) (index : Nat) (block : BlockTemplate) (raw : RawBlock) (a : Accepted) :
    ChainM PUnit.{1} := fun s =>
  match block.baseTransaction.hash cx with
  | .error _ => .error (.rule (.deserializationFailed "coinbase hash")) s
  | .ok coinbaseHash =>
    let recent := s.recent ++ [a.info]
    updateBlockMedianSize { s with
      store := s.store.writeBatch (s.pushOps index block raw coinbaseHash a)
      tip := some index
      recent := recent.drop (recent.length - s.cfg.recentWindow) }

/-- `first_output_from_block`: the lowest global index whose record belongs to
block `index` or a later one. Stored global indexes are `u32`, so `key_output`
reads the store for them. -/
def firstOutputSearch (amount index : Nat) : Nat → Nat → Nat → Except ChainError Nat
  | 0, low, _ => .ok low
  | fuel+1, low, high =>
    if low < high then
      let mid := low + (high - low) / 2
      match s.store (.output amount mid) with
      | none => .error (.corrupt
          s!"no output record for amount {amount} at global index {mid}, below its count")
      | some record =>
        if index ≤ record.blockIndex then firstOutputSearch amount index fuel low mid
        else firstOutputSearch amount index fuel (mid+1) high
    else .ok low

def firstOutputFromBlock (amount index : Nat) : Except ChainError Nat :=
  let count := s.outputCountForAmount amount
  s.firstOutputSearch amount index count 0 count

/-- Where the next output of the amount belongs: after the one just placed, or
where the block's outputs of the amount begin. -/
def nextOutputIndex (index : Nat) (next : AList (fun _ : Nat => Nat)) (amount : Nat) :
    Except ChainError Nat :=
  match next.lookup amount with
  | some globalIndex => .ok globalIndex
  | none => s.firstOutputFromBlock amount index

/-- The pairs of a body's outputs, each checked against its output record. -/
def rebuildRefs (index : Nat) : AList (fun _ : Nat => Nat) → List (Nat × OutputRecord) →
    Except ChainError (List (Nat × Nat))
  | _, [] => .ok []
  | next, (amount,expected) :: rest => do
    let globalIndex ← s.nextOutputIndex index next amount
    let belongs : Bool := match s.store (.output amount globalIndex) with
      | some r => r.blockIndex = index ∧ r.transactionHash = expected.transactionHash ∧
          r.outputIndex = expected.outputIndex
      | none => false
    refuseIf (belongs = false) (ChainError.corrupt
      s!"stored block {index}: an output is not at global index {globalIndex}, where the chain's order puts it")
    let refs ← rebuildRefs index (next.insert amount (globalIndex+1)) rest
    pure ((amount,globalIndex) :: refs)

def storedCorrupt (index : Nat) (what : String) : ChainError :=
  .corrupt s!"stored block {index}: {what}"

def bodyOutputs (cx : Crypto) (index : Nat) (raw : RawBlock) :
    Except ChainError (List (Nat × OutputRecord)) := do
  let block ← (BlockTemplate.fromBytes raw.block).mapError
    (fun _ => storedCorrupt index "the block does not parse")
  let coinbaseHash ← (block.baseTransaction.hash cx).mapError
    (fun _ => storedCorrupt index "the coinbase does not hash")
  let transactions ← (parseTransactionBlobs
      (raw.transactions.take block.transactionHashes.length)).mapError
    (fun _ => storedCorrupt index "a transaction does not parse")
  pure (blockOutputList index block coinbaseHash transactions)

/-- `block_output_refs`: the record of the block, or the pairs rebuilt from its
body; `none` when neither is there. -/
def blockOutputRefs (cx : Crypto) (index : Nat) : Except ChainError (Option (List (Nat × Nat))) :=
  match s.store (.blockOutputs index) with
  | some refs => .ok (some refs)
  | none =>
    if s.tip.any (index ≤ ·) = false then .ok none
    else
      match s.store (.rawBlock index) with
      | none => .ok none
      | some raw => do
        let outputs ← bodyOutputs cx index raw
        let refs ← s.rebuildRefs index ∅ outputs
        pure (some refs)

end ChainState

/-- The records several unwound blocks share, as the blocks already unwound in
the same batch leave them. -/
structure UnwindScratch where
  lowestOutput : AList (fun _ : Nat => Nat) := ∅
  entryCounts : AList (fun _ : Hash => Nat) := ∅
  legacy : AList (fun _ : Hash => List Hash) := ∅

namespace UnwindScratch

def noteOutput (scratch : UnwindScratch) (ref : Nat × Nat) : UnwindScratch :=
  let lowest := min ((scratch.lowestOutput.lookup ref.1).getD ref.2) ref.2
  { scratch with lowestOutput := scratch.lowestOutput.insert ref.1 lowest }

def finish (scratch : UnwindScratch) : List WriteOp :=
  scratch.lowestOutput.entries.map
      (fun e => ⟨.outputCount e.1, if e.2 = 0 then none else some e.2⟩) ++
    scratch.entryCounts.entries.map
      (fun e => ⟨.paymentIdCount e.1, if 0 < e.2 then some e.2 else none⟩) ++
    scratch.legacy.entries.map
      (fun e => ⟨.paymentId e.1, if e.2 = [] then none else some e.2⟩)

end UnwindScratch

namespace ChainState

variable (s : ChainState)

def paymentMismatch (index : Nat) : ChainError :=
  .corrupt s!"payment-id index for block {index} does not end with the entry that block added"

/-- The payment-id entries of a block, taken off from the last one back. An id
without entries left has its hash in the list of schema 3. -/
def unwindPayments (index : Nat) : List (Hash × Hash) → UnwindScratch →
    Except ChainError (List WriteOp × UnwindScratch)
  | [], scratch => .ok ([],scratch)
  | (id,txHash) :: rest, scratch =>
    let count := nextIndex s.paymentIdEntryCount scratch.entryCounts id
    if 0 < count then do
      let last := count - 1
      let entry ← orRefuse (s.store (.paymentIdEntry id last))
        (ChainError.corrupt s!"payment-id entry {last} of {count} is missing")
      refuseIf (entry ≠ txHash) (paymentMismatch index)
      let (ops,scratch) ← unwindPayments index rest
        { scratch with entryCounts := scratch.entryCounts.insert id last }
      pure (⟨.paymentIdEntry id last, none⟩ :: ops, scratch)
    else do
      let list := (scratch.legacy.lookup id).getD (s.legacyPaymentIdList id)
      refuseIf (list.getLast? ≠ some txHash) (paymentMismatch index)
      unwindPayments index rest { scratch with legacy := scratch.legacy.insert id list.dropLast }

def unwindPaymentIds (index : Nat) (scratch : UnwindScratch) :
    Except ChainError (List WriteOp × UnwindScratch) :=
  match s.store (.blockPaymentIds index) with
  | none => .ok ([],scratch)
  | some refs => do
    let (ops,scratch) ← s.unwindPayments index refs.reverse scratch
    pure (ops ++ [⟨.blockPaymentIds index, none⟩], scratch)

def unwindKeyImageOps (index : Nat) : List WriteOp :=
  match s.store (.blockKeyImages index) with
  | none => []
  | some images =>
    images.map (fun image => ⟨.keyImage image, none⟩) ++ [⟨.blockKeyImages index, none⟩]

def unwindBlockOps (index : Nat) (info : BlockInfo) (refs : List (Nat × Nat)) : List WriteOp :=
  refs.map (fun r => ⟨.output r.1 r.2, none⟩) ++
    [⟨.blockOutputs index, none⟩, ⟨.blockInfo index, none⟩, ⟨.hashToIndex info.blockHash, none⟩] ++
    (s.blockTransactionHashes index).map (fun h => ⟨.transactionIndex h, none⟩) ++
    [⟨.blockTxHashes index, none⟩, ⟨.rawBlock index, none⟩]

/-- `unwind_ops`: the writes that take block `index` off the chain. -/
def unwindOps (cx : Crypto) (index : Nat) (scratch : UnwindScratch) :
    Except ChainError (List WriteOp × UnwindScratch) := do
  let info ← orRefuse (s.blockInfo index) (infoMissing index)
  let (paymentOps,scratch) ← s.unwindPaymentIds index scratch
  let refs ← s.blockOutputRefs cx index
  let refs ← orRefuse refs (ChainError.rule (.reorganisationUnavailable index))
  pure (s.unwindKeyImageOps index ++ paymentOps ++ s.unwindBlockOps index info refs,
    refs.foldl UnwindScratch.noteOutput scratch)

def reloadInfos : List Nat → Except ChainError (List BlockInfo)
  | [] => .ok []
  | index :: rest => do
    let info ← orRefuse (s.store (.blockInfo index)) (infoMissing index)
    let infos ← reloadInfos rest
    pure (info :: infos)

/-- `reload_recent` reads the last infos back from the store. -/
def reloadRecent : ChainM PUnit.{1} := fun s =>
  match s.tip with
  | none => .ok ⟨⟩ { s with recent := [] }
  | some tip =>
    let start := tip + 1 - s.cfg.recentWindow
    match s.reloadInfos (List.range' start (tip + 1 - start)) with
    | .ok infos => .ok ⟨⟩ { s with recent := infos }
    | .error e => .error e s

def unwindBlock (cx : Crypto) (index : Nat) : ChainM PUnit.{1} := do
  let s ← get
  liftExcept (refuseIf (s.tip ≠ some index)
    (.corrupt s!"unwind of {index} but it is not the tip"))
  let (ops,scratch) ← liftExcept (s.unwindOps cx index {})
  let newTip := if index = 0 then none else some (index-1)
  set { s with
    store := s.store.writeBatch (ops ++ scratch.finish ++ [(⟨.metaTip, newTip⟩ : WriteOp)])
    tip := newTip }
  reloadRecent
  updateBlockMedianSize

/-- The blocks above `topIndex`, from the top down, with the scratch handed on. -/
def rewindOps (cx : Crypto) : List Nat → UnwindScratch →
    Except ChainError (List WriteOp × UnwindScratch)
  | [], scratch => .ok ([],scratch)
  | index :: rest, scratch => do
    let (ops,scratch) ← s.unwindOps cx index scratch
    let (restOps,scratch) ← rewindOps cx rest scratch
    pure (ops ++ restOps, scratch)

/-- `restore_output_refs`: the pair records dropped while the removed blocks were
applied, for the blocks that are kept and still have a body. -/
def restoreOutputRefs (cx : Crypto) : List Nat → Except ChainError (List WriteOp)
  | [] => .ok []
  | index :: rest =>
    if (s.store (.blockOutputs index)).isSome then restoreOutputRefs cx rest
    else do
      let refs ← s.blockOutputRefs cx index
      let ops ← restoreOutputRefs cx rest
      match refs with
      | none => pure ops
      | some refs => pure (⟨.blockOutputs index, some refs⟩ :: ops)

def droppedIndexes (history topIndex oldTip : Nat) : List Nat :=
  if oldTip < history then []
  else
    let low := topIndex + 1 - history
    let high := min topIndex (oldTip - history)
    List.range' low (high + 1 - low)

def rewindTo (cx : Crypto) (topIndex : Nat) : ChainM Nat := do
  let s ← get
  match s.tip with
  | none => pure 0
  | some tip =>
    if tip ≤ topIndex then pure 0
    else do
      let lite := s.cfg.liteStartHeight
      liftExcept (refuseIf (lite ≠ 0 ∧ topIndex + 1 < lite)
        (.rule (.reorganisationBelowBodyFloor (topIndex+1) lite)))
      let (ops,scratch) ← liftExcept
        (s.rewindOps cx (List.range' (topIndex+1) (tip - topIndex)).reverse {})
      let restored ← liftExcept
        (s.restoreOutputRefs cx (droppedIndexes s.cfg.unwindHistory topIndex tip))
      set { s with
        store := s.store.writeBatch
          (ops ++ scratch.finish ++ restored ++ [(⟨.metaTip, some topIndex⟩ : WriteOp)])
        tip := some topIndex
        altBlocks := ∅
        unwound := [] }
      reloadRecent
      updateBlockMedianSize
      pure (tip - topIndex)

end ChainState

end Wrkz
