import Wrkz.Chain.Apply

/-!
Accepting a block: on the main chain, on a branch, or with a switch to the
branch. A switch that fails puts the old chain back and forgets the branch from
the failed block on.
-/

set_option autoImplicit false

namespace Wrkz

open Library

inductive AddStatus where
  | main
  | alternative
  | alternativeAndSwitched
  deriving DecidableEq, Repr

structure AddOutcome where
  index : Nat
  hash : Hash
  cumulativeDifficulty : Nat
  alreadyGeneratedCoins : Nat
  difficulty : Nat
  status : AddStatus
  deriving DecidableEq, Repr

structure AddReport where
  outcome : AddOutcome
  unwound : List UnwoundBlock
  deriving DecidableEq, Repr

namespace AltBlocks

variable (alts : AltBlocks)

def length : Nat := alts.entries.length

def isParent (h : Hash) : Bool := alts.entries.any (fun e => e.2.prevHash = h)

/-- How many alternative blocks build on `h`. -/
def children (h : Hash) : Nat := alts.entries.countP (fun e => e.2.prevHash = h)

def leaves : List Hash := alts.keys.filter (fun h => alts.isParent h = false)

def dropAll (alts : AltBlocks) (hs : List Hash) : AltBlocks := hs.foldl (fun a h => a.erase h) alts

/-- The order of `weakest_leaf`: cumulative difficulty, then index, then hash. -/
def weaker (a b : Hash × AltBlock) : Bool :=
  let x := a.2.info.cumulativeDifficulty
  let y := b.2.info.cumulativeDifficulty
  x < y ∨ x = y ∧ (a.2.index < b.2.index ∨ a.2.index = b.2.index ∧ a.1.lt b.1)

def weakest : List (Hash × AltBlock) → Option (Hash × AltBlock)
  | [] => none
  | a :: rest =>
    match weakest rest with
    | none => some a
    | some b => if weaker b a then some b else some a

def weakestLeaf (exclude : Option Hash) : Option Hash :=
  let candidates := (alts.leaves.filter (fun h => some h ≠ exclude)).filterMap fun h =>
    (alts.lookup h).map fun b => (h,b)
  (weakest candidates).map Prod.fst

/-- From `cursor` down to the first block another one also builds on. -/
def segmentBelow : Nat → Hash → List Hash
  | 0, _ => []
  | fuel+1, cursor =>
    match alts.lookup cursor with
    | none => []
    | some b => if 1 < alts.children cursor then [] else cursor :: segmentBelow fuel b.prevHash

def leafSegment (leaf : Hash) : List Hash :=
  match alts.lookup leaf with
  | none => [leaf]
  | some b => leaf :: alts.segmentBelow alts.length b.prevHash

def isStale (tip : Nat) (leaf : Hash) : Bool :=
  match alts.lookup leaf with
  | some b => b.index < tip && cryptonoteMaxAltBlockDepth < tip - b.index
  | none => false

def staleSegments (tip : Nat) (exclude : Option Hash) : List (List Hash) :=
  ((alts.leaves.filter (fun h => some h ≠ exclude)).filter (alts.isStale tip)).map alts.leafSegment

/-- Drop the weakest leaf segment while `tooMany` holds. -/
def pruneWhile (tooMany : AltBlocks → Bool) (exclude : Option Hash) : Nat → AltBlocks → AltBlocks
  | 0, alts => alts
  | fuel+1, alts =>
    if tooMany alts then
      match alts.weakestLeaf exclude with
      | none => alts
      | some leaf => pruneWhile tooMany exclude fuel (alts.dropAll (alts.leafSegment leaf))
    else alts

def tooManyLeaves (alts : AltBlocks) : Bool := cryptonoteMaxAltChainCount < alts.leaves.length

def tooManyBlocks (alts : AltBlocks) : Bool := cryptonoteMaxAltBlockCount < alts.length

/-- `prune_alternative_chains`, its three passes. -/
def prune (tip : Nat) (exclude : Option Hash) (alts : AltBlocks) : AltBlocks :=
  let first := (alts.staleSegments tip exclude).foldl dropAll alts
  let second := pruneWhile tooManyLeaves exclude first.length first
  pruneWhile tooManyBlocks exclude second.length second

/-- One pass over the blocks: those built on a doomed block are doomed. -/
def doomedPass (doomed : List Hash) : List Hash :=
  alts.entries.foldl (fun d e => if e.2.prevHash ∈ d ∧ e.1 ∉ d then e.1 :: d else d) doomed

def doomedFrom : Nat → List Hash → List Hash
  | 0, doomed => doomed
  | fuel+1, doomed =>
    let next := alts.doomedPass doomed
    if next.length = doomed.length then doomed else doomedFrom fuel next

/-- `drop_alternative_subtree`. -/
def dropSubtree (root : Hash) (alts : AltBlocks) : AltBlocks :=
  alts.dropAll (alts.doomedFrom (alts.length+1) [root])

end AltBlocks

inductive Parent where
  | mainTip (index : Nat)
  | mainDepth (index : Nat)
  | alternative (hash : Hash) (index : Nat)
  deriving DecidableEq, Repr

/-- A block a switch takes off the main chain, with what is needed to put it back. -/
structure UnwoundRaw where
  index : Nat
  info : BlockInfo
  raw : RawBlock
  deriving DecidableEq, Repr

namespace ChainState

variable (s : ChainState)

def addToMain (cx : Crypto) (block : BlockTemplate) (raw : RawBlock) (hash : Hash)
    (previousIndex : Nat) : ChainM AddOutcome := do
  let s ← get
  let a ← liftExcept (s.checkMain cx block raw.transactions hash previousIndex)
  pushBlock cx (previousIndex+1) block raw a
  pure ⟨previousIndex+1,hash,a.info.cumulativeDifficulty,a.info.alreadyGeneratedCoins,
    a.difficulty,.main⟩

/-- Walk from `cursor` to the main chain. The fork point is returned with the
hashes above it, ascending. -/
def branchLoop : Nat → Hash → List Hash → Except ChainError (Nat × List Hash)
  | fuel, cursor, chain =>
    match s.altBlocks.lookup cursor with
    | none => do
      let index ← orRefuse (s.blockIndexByHash cursor) (ChainError.rule .rejectedAsOrphaned)
      pure (index,chain)
    | some alt =>
      match fuel with
      | 0 => .error (.corrupt "alternative chain loops back on itself")
      | fuel+1 => branchLoop fuel alt.prevHash (cursor :: chain)

def branchHashes (hash : Hash) : Except ChainError (Nat × List Hash) :=
  s.branchLoop s.altBlocks.length hash []

def branchInfos (parentAlt : Option Hash) (previousIndex : Nat) :
    Except ChainError (Nat × List BlockInfo) :=
  match parentAlt with
  | none => .ok (previousIndex,[])
  | some parent => do
    let (forkIndex,hashes) ← s.branchHashes parent
    pure (forkIndex, hashes.filterMap fun h => (s.altBlocks.lookup h).map AltBlock.info)

def collectUnwound : List Nat → Except ChainError (List UnwoundRaw)
  | [] => .ok []
  | index :: rest => do
    let info ← orRefuse (s.blockInfo index) (infoMissing index)
    let raw ← orRefuse (s.rawBlock index) (ChainError.rule (.reorganisationUnavailable index))
    let unwound ← collectUnwound rest
    pure (⟨index,info,raw⟩ :: unwound)

def unwindAll (cx : Crypto) : List Nat → ChainM PUnit.{1}
  | [] => pure ⟨⟩
  | index :: rest => do
    unwindBlock cx index
    unwindAll cx rest

/-- Apply the branch through the main-chain path. Stops at the first block that
fails and returns how many were applied. -/
def applyBranch (cx : Crypto) : List Hash → Nat → ChainM (Nat × Option (ChainError × Hash))
  | [], applied => pure (applied,none)
  | h :: rest, applied => fun s =>
    match s.altBlocks.lookup h with
    | none => .error (.corrupt "a branch block is not held") s
    | some alt =>
      match BlockTemplate.fromBytes alt.blockBlob with
      | .error _ => .error (.rule (.deserializationFailed "alternative block blob")) s
      | .ok block =>
        match addToMain cx block ⟨alt.blockBlob,alt.txBlobs⟩ h (alt.index-1) s with
        | .ok _ s => applyBranch cx rest (applied+1) s
        | .error e s => .ok (applied,some (e,h)) s

/-- The walk down a branch that ends on the main chain, a block at a time. -/
theorem branchLoop_induction {s : ChainState} {i : Nat} {branch : List Hash}
    {motive : ∀ fuel cursor acc, s.branchLoop fuel cursor acc = .ok (i,branch) → Prop}
    (main : ∀ fuel cursor h, s.altBlocks.lookup cursor = none →
      s.blockIndexByHash cursor = some i → motive fuel cursor branch h)
    (held : ∀ fuel cursor acc alt h h', s.altBlocks.lookup cursor = some alt →
      motive fuel alt.prevHash (cursor :: acc) h' → motive (fuel+1) cursor acc h)
    {fuel : Nat} {cursor : Hash} {acc : List Hash}
    (h : s.branchLoop fuel cursor acc = .ok (i,branch)) : motive fuel cursor acc h := by
  induction fuel generalizing cursor acc with
  | zero =>
    have hrun := h
    unfold branchLoop at hrun
    split at hrun
    · simp only [bind_ok_iff, orRefuse_ok_iff, pure_ok_iff, Prod.mk.injEq] at hrun
      obtain ⟨_,hi,rfl,rfl⟩ := hrun
      exact main 0 cursor h ‹_› hi
    · cases hrun
  | succ fuel ih =>
    have hrun := h
    unfold branchLoop at hrun
    split at hrun
    · simp only [bind_ok_iff, orRefuse_ok_iff, pure_ok_iff, Prod.mk.injEq] at hrun
      obtain ⟨_,hi,rfl,rfl⟩ := hrun
      exact main _ cursor h ‹_› hi
    · exact held fuel cursor acc _ h hrun ‹_› (ih hrun)

variable {block : BlockTemplate} {alt : AltBlock} {cx : Crypto} {h : Hash}

theorem applyBranch_cons_ok (rest : List Hash) (n : Nat) {s t : ChainState} {outcome : AddOutcome}
    (halt : s.altBlocks.lookup h = some alt)
    (hparsed : BlockTemplate.fromBytes alt.blockBlob = .ok block)
    (hadd : addToMain cx block ⟨alt.blockBlob,alt.txBlobs⟩ h (alt.index-1) s = .ok outcome t) :
    applyBranch cx (h :: rest) n s = applyBranch cx rest (n+1) t := by
  conv_lhs => unfold applyBranch
  simp only [halt, hparsed, hadd]

theorem applyBranch_cons_error {rest : List Hash} {n : Nat} {s t : ChainState} {e : ChainError}
    (halt : s.altBlocks.lookup h = some alt)
    (hparsed : BlockTemplate.fromBytes alt.blockBlob = .ok block)
    (hadd : addToMain cx block ⟨alt.blockBlob,alt.txBlobs⟩ h (alt.index-1) s = .error e t) :
    applyBranch cx (h :: rest) n s = .ok (n,some (e,h)) t := by
  unfold applyBranch
  simp only [halt, hparsed, hadd]

def storedUnparsed (index : Nat) : ChainError :=
  .corrupt s!"stored block {index} no longer parses"

def restoreTail (cx : Crypto) : List UnwoundRaw → ChainM PUnit.{1}
  | [] => pure ⟨⟩
  | u :: rest => do
    let block ← liftExcept ((BlockTemplate.fromBytes u.raw.block).mapError
      (fun _ => storedUnparsed u.index))
    let h ← liftExcept ((block.hash cx).mapError
      (fun _ => ChainError.corrupt "stored block has no hash"))
    let _ ← addToMain cx block u.raw h (u.index-1)
    restoreTail cx rest

def keepTail : List UnwoundRaw → ChainM PUnit.{1}
  | [] => pure ⟨⟩
  | u :: rest => do
    let block ← liftExcept ((BlockTemplate.fromBytes u.raw.block).mapError
      (fun _ => storedUnparsed u.index))
    modify fun s => { s with
      unwound := s.unwound ++
        [⟨u.index,u.info.blockHash,block.transactionHashes,u.raw.transactions⟩]
      altBlocks := s.altBlocks.insert u.info.blockHash
        ⟨u.index,block.previousBlockHash,u.info,u.raw.block,u.raw.transactions⟩ }
    keepTail rest

/-- The switch is undone: what was applied comes off, the old tail goes back. A
block that failed a rule is forgotten with everything built on it. -/
def rollBack (cx : Crypto) (forkIndex applied : Nat) (unwound : List UnwoundRaw) (e : ChainError)
    (failedAt : Hash) : ChainM PUnit.{1} := do
  unwindAll cx (List.range' (forkIndex+1) applied).reverse
  restoreTail cx unwound.reverse
  match e with
  | .rule _ => modify fun s => { s with altBlocks := s.altBlocks.dropSubtree failedAt }
  | .corrupt _ => pure ⟨⟩
  throw e

/-- The blocks at `indexes` give way to the branch; a failure is rolled back. -/
def exchangeTail (cx : Crypto) (s : ChainState) (forkIndex : Nat) (indexes : List Nat)
    (branch : List Hash) : ChainM PUnit.{1} := do
  let unwound ← liftExcept (s.collectUnwound indexes)
  unwindAll cx indexes
  let (applied,failure) ← applyBranch cx branch 0
  match failure with
  | some (e,failedAt) => rollBack cx forkIndex applied unwound e failedAt
  | none =>
    modify fun s => { s with altBlocks := s.altBlocks.dropAll branch }
    keepTail unwound

def switchTo (cx : Crypto) (hash : Hash) : ChainM PUnit.{1} := do
  let s ← get
  let (forkIndex,branch) ← liftExcept (s.branchHashes hash)
  let tip ← liftExcept (orRefuse s.tip (.corrupt "switching chains on an empty state"))
  liftExcept (match s.cfg.bodyFloor tip with
    | none => pure ⟨⟩
    | some floor => refuseIf (forkIndex + 1 < floor)
        (.rule (.reorganisationBelowBodyFloor (forkIndex+1) floor)))
  exchangeTail cx s forkIndex (List.range' (forkIndex+1) (tip - forkIndex)).reverse branch

def pruneAlternativeChains (exclude : Option Hash) : ChainM PUnit.{1} :=
  modify fun s =>
    match s.tip with
    | none => s
    | some tip => { s with altBlocks := s.altBlocks.prune tip exclude }

def locateParent (prevHash : Hash) : Except ChainError Parent :=
  match s.altBlocks.lookup prevHash with
  | some alt => .ok (.alternative prevHash alt.index)
  | none =>
    match s.blockIndexByHash prevHash with
    | none => .error (.rule .rejectedAsOrphaned)
    | some index => if some index = s.tip then .ok (.mainTip index) else .ok (.mainDepth index)

def addToAlternative (cx : Crypto) (block : BlockTemplate) (raw : RawBlock) (hash : Hash)
    (previousIndex : Nat) (parentAlt : Option Hash) : ChainM AddOutcome := do
  let s ← get
  let (forkIndex,infos) ← liftExcept (s.branchInfos parentAlt previousIndex)
  let (info,difficulty) ← liftExcept (s.checkAlternative cx (.withBranch forkIndex infos) block
    raw.transactions hash previousIndex)
  let alt : AltBlock :=
    ⟨previousIndex+1,block.previousBlockHash,info,raw.block,raw.transactions⟩
  set { s with altBlocks := s.altBlocks.insert hash alt }
  let mainCumulative := (s.tipInfo.map BlockInfo.cumulativeDifficulty).getD 0
  let status ← if mainCumulative < info.cumulativeDifficulty then do
      switchTo cx hash
      pure AddStatus.alternativeAndSwitched
    else pure AddStatus.alternative
  pruneAlternativeChains (some hash)
  pure ⟨previousIndex+1,hash,info.cumulativeDifficulty,info.alreadyGeneratedCoins,difficulty,status⟩

def addBlockInner (cx : Crypto) (raw : RawBlock) : ChainM AddOutcome := do
  let block ← liftExcept ((BlockTemplate.fromBytes raw.block).mapError
    (fun _ => ChainError.rule (.deserializationFailed "block blob")))
  let hash ← liftExcept ((block.hash cx).mapError
    (fun _ => ChainError.rule (.deserializationFailed "block hash")))
  let s ← get
  liftExcept (refuseIf (s.hasBlock hash = true) (ChainError.rule .alreadyExists))
  let parent ← liftExcept (s.locateParent block.previousBlockHash)
  match parent with
  | .mainTip previousIndex => do
    let outcome ← addToMain cx block raw hash previousIndex
    pruneAlternativeChains none
    pure outcome
  | .mainDepth previousIndex => addToAlternative cx block raw hash previousIndex none
  | .alternative prevHash previousIndex =>
    addToAlternative cx block raw hash previousIndex (some prevHash)

def addBlockDetailed (cx : Crypto) (raw : RawBlock) : ChainM AddReport := do
  modify fun s => { s with unwound := [] }
  let outcome ← addBlockInner cx raw
  let s ← get
  set { s with unwound := [] }
  pure ⟨outcome,s.unwound⟩

def addBlock (cx : Crypto) (raw : RawBlock) : ChainM AddOutcome := do
  let report ← addBlockDetailed cx raw
  pure report.outcome

/-- What `open` records of the configuration in an empty store. -/
def openOps (cfg : Config) : List WriteOp :=
  (if cfg.liteStartHeight = 0 then [] else [⟨.metaLiteHeight, some cfg.liteStartHeight⟩]) ++
    (if cfg.simnet then [⟨.metaNetwork, some ()⟩] else []) ++
    match cfg.pruneDepth with
    | some depth => [⟨.metaPruneDepth, some depth⟩]
    | none => []

/-- `open` of an empty store. -/
def openEmpty (cfg : Config) (checkpoints : Checkpoints) (clock : Nat) : ChainState where
  store := KeyValue.empty.writeBatch (openOps cfg)
  cfg := cfg
  checkpoints := checkpoints
  tip := none
  recent := []
  blockMedianSize := fullRewardZone (blockMajorVersionForIndex 0)
  altBlocks := ∅
  unwound := []
  clock := clock
  powHint := none
  strictTransactionList := true

def genesisCorrupt : ChainError := .corrupt "genesis does not serialize"

def genesisAccepted (cx : Crypto) : Except ChainError (BlockTemplate × RawBlock × Accepted) := do
  let block ← genesisBlock.mapError (fun _ => genesisCorrupt)
  let blob ← (block.toBytes cx).mapError (fun _ => genesisCorrupt)
  let hash ← (block.hash cx).mapError (fun _ => ChainError.corrupt "genesis has no hash")
  let coinbase ← block.baseTransaction.toBytes.mapError
    (fun _ => ChainError.corrupt "genesis coinbase does not serialize")
  let minerReward ← orRefuse block.coinbaseOutputTotal
    (ChainError.corrupt "genesis coinbase total overflows")
  pure (block,⟨blob,[]⟩,⟨[],⟨hash,block.timestamp,coinbase.length,1,minerReward,1⟩,.new,1⟩)

def applyGenesis (cx : Crypto) : ChainM PUnit.{1} := do
  let (block,raw,a) ← liftExcept (genesisAccepted cx)
  pushBlock cx 0 block raw a

/-- `open_or_genesis` of an empty store. -/
def openOrGenesis (cx : Crypto) (cfg : Config) (checkpoints : Checkpoints) (clock : Nat) :
    EStateM.Result ChainError ChainState PUnit.{1} :=
  applyGenesis cx (openEmpty cfg checkpoints clock)

end ChainState

end Wrkz
