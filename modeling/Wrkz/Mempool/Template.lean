import Wrkz.Library.Splice
import Wrkz.Mempool.Coinbase
import Wrkz.Mempool.Consistent
import Wrkz.Primitives.Base58
import Wrkz.Primitives.BlockRoundTrip

/-!
Block templates: what is read off the chain, the transactions picked from the pool, the
coinbase rebuilt until it fills the size its reward was computed for, and the place of
the reserved bytes in the finished blob.
-/

set_option autoImplicit false

namespace Wrkz

open Library BlockTemplate List

/-- A `PoolChain` with the readings only a template needs. -/
structure TemplateChain extends PoolChain where
  blockInfoAt : Nat → Option BlockInfo
  fixedDifficulty : Option Nat

namespace TemplateChain

variable (chain : TemplateChain)

def topBlockHash : Hash := ((chain.blockInfoAt chain.topIndex).map (·.blockHash)).getD default

def alreadyGeneratedCoins : Nat :=
  ((chain.blockInfoAt chain.topIndex).map (·.alreadyGeneratedCoins)).getD 0

/-- The readings are of the source's types, `u32` for the tip of a chain state and `u64`
for a timestamp. -/
structure InRange : Prop where
  topIndex_lt : chain.topIndex < 2 ^ 32
  timestamp_lt : ∀ i info, chain.blockInfoAt i = some info → info.timestamp < 2 ^ 64

end TemplateChain

def ChainState.templateChain (s : ChainState) : TemplateChain where
  toPoolChain := s.poolChain
  blockInfoAt i := if i < 2^32 then s.blockInfo i else none
  fixedDifficulty := if s.cfg.simnet then some simnetDifficulty else none

structure TemplateContext where
  height : Nat
  previousBlockHash : Hash
  difficulty : Nat
  majorVersion : Nat
  minorVersion : Nat
  medianSize : Nat
  maxCumulativeSize : Nat
  alreadyGeneratedCoins : Nat
  timestampMedian : Option Nat
  deriving DecidableEq, Repr

inductive ContextError where
  | difficultyIsZero
  | missing (index : Nat)
  deriving DecidableEq, Repr

def v2Undefined : Bool := false
def v3Undefined : Bool := false
def blockMinorVersion0 : Nat := 0
def blockMinorVersion1 : Nat := 1

def minorVersionFor (majorVersion : Nat) : Nat :=
  if majorVersion = blockMajorVersion1 then
    if v2Undefined then blockMinorVersion1 else blockMinorVersion0
  else if v3Undefined ∧ majorVersion = blockMajorVersion2 then blockMinorVersion1
  else blockMinorVersion0

def readInfos (chain : TemplateChain) : List Nat → Except ContextError (List BlockInfo)
  | [] => .ok []
  | i :: rest => do
    let info ← orRefuse (chain.blockInfoAt i) (.missing i)
    let infos ← readInfos chain rest
    pure (info :: infos)

def nextBlockDifficulty (chain : TemplateChain) (parentIndex : Nat) :
    Except ContextError (Option Nat) :=
  match chain.fixedDifficulty with
  | some fixed => .ok (some fixed)
  | none =>
    if 2^32 ≤ parentIndex then .ok none
    else do
      let window ← readInfos chain (difficultyWindowIndexes parentIndex)
      pure (difficultyForNextBlockFrom parentIndex window)

def templateTimestampCheckWindow (height : Nat) : Nat :=
  if lwma2DifficultyBlockIndex ≤ height then blockchainTimestampCheckWindowV3
  else blockchainTimestampCheckWindow

def templateTimestampMedian (chain : TemplateChain) (height : Nat) :
    Except ContextError (Option Nat) :=
  let window := templateTimestampCheckWindow height
  if height < window then .ok none
  else do
    let infos ← readInfos chain (List.range' (height-window) window)
    pure (some (medianValue (infos.map BlockInfo.timestamp)))

namespace TemplateContext

def fromChain (chain : TemplateChain) : Except ContextError TemplateContext := do
  let top := chain.topIndex
  let height := top+1
  let found ← nextBlockDifficulty chain top
  let difficulty ← orRefuse found .difficultyIsZero
  let majorVersion := blockMajorVersionForIndex height
  let timestampMedian ← templateTimestampMedian chain height
  pure ⟨height,chain.topBlockHash,difficulty,majorVersion,minorVersionFor majorVersion,
    chain.blockMedianSize,maxBlockCumulativeSize height,chain.alreadyGeneratedCoins,timestampMedian⟩

def clampTimestamp (ctx : TemplateContext) (now : Nat) : Nat :=
  match ctx.timestampMedian with
  | some median => if now < median then median else now
  | none => now

end TemplateContext

structure TemplateTransaction where
  hash : Hash
  blob : Bytes
  fee : Nat
  deriving DecidableEq, Repr

variable {cx : Crypto}

/-- `for_block_template`: the fee paying and the fee-less entries. -/
def TransactionPool.forBlockTemplate (pool : TransactionPool cx) :
    List (PoolEntry cx) × List (PoolEntry cx) :=
  (pool.byPriority.filter (·.fee ≠ 0),pool.byPriority.filter (·.fee = 0))

def templateRevalidateContext (chain : TemplateChain) (height : Nat) : RevalidateContext :=
  ⟨height,chain.blockMedianSize,chain.topBlockTimestamp⟩

def validForBlockTemplate (entry : PoolEntry cx) (ctx : RevalidateContext) : Bool :=
  (revalidateAfterHeightChange cx entry.transaction entry.blob ctx).isOk

/-- Whether an image is met again. The set grows as the images are walked, so those in
front of the one met again stay in it. -/
def insertImages (alreadySpent : List Hash) : List Hash → Bool × List Hash
  | [] => (false,alreadySpent)
  | image :: rest =>
    if image ∈ alreadySpent then (true,alreadySpent) else insertImages (image :: alreadySpent) rest

structure Filling where
  selected : List TemplateTransaction := []
  invalid : List Hash := []
  alreadySpent : List Hash := []
  transactionsSize : Nat := 0
  deriving DecidableEq, Repr

def Filling.consider (chain : TemplateChain) (ctx : TemplateContext) (maxTotalSize : Nat)
    (f : Filling) (entry : PoolEntry cx) : Filling :=
  if maxTotalSize < f.transactionsSize + entry.size then f
  else if validForBlockTemplate entry (templateRevalidateContext chain ctx.height) = false then
    { f with invalid := f.invalid ++ [entry.hash] }
  else if TransactionPool.spendsOnChain chain.toPoolChain entry (ctx.height-1) then
    { f with invalid := f.invalid ++ [entry.hash] }
  else
    let (collides,alreadySpent) := insertImages f.alreadySpent entry.images
    if collides then { f with alreadySpent }
    else
      { f with
        alreadySpent
        transactionsSize := f.transactionsSize + entry.size
        selected := f.selected ++ [⟨entry.hash,entry.blob,entry.fee⟩] }

def maxTotalSize (ctx : TemplateContext) : Nat :=
  min (125*ctx.medianSize / 100) ctx.maxCumulativeSize - cryptonoteCoinbaseBlobReservedSize

def fillBlockTemplate (pool : TransactionPool cx) (chain : TemplateChain) (ctx : TemplateContext) :
    List TemplateTransaction × TransactionPool cx :=
  let (regular,fusion) := pool.forBlockTemplate
  let f := (regular ++ fusion).foldl (Filling.consider chain ctx (maxTotalSize ctx)) {}
  (f.selected,pool.removeAll f.invalid)

/-- What a template takes from outside: the key arithmetic, a fresh key pair and the system
clock. -/
structure TemplateEnv extends OneTimeKeys where
  generateKeys : Hash × Hash
  systemTime : Nat

structure TemplateOptions where
  txKey : Option (Hash × Hash) := none
  now : Option Nat := none
  deriving DecidableEq, Repr

inductive TemplateError where
  | badAddress (e : Base58.Base58Error)
  | reserveTooBig (size : Nat)
  | context (e : ContextError)
  | minerTx (e : MinerTxError)
  | serialization (e : Error)
  | coinbaseUnstable
  | coinbaseSizeMismatch (cumulativeSize transactionsSize coinbaseSize : Nat)
  | reserveDoesNotFit (reservedOffset reserveSize blobLen : Nat)
  deriving DecidableEq, Repr

structure BlockTemplateResult where
  blob : Bytes
  block : BlockTemplate
  difficulty : Nat
  height : Nat
  reservedOffset : Nat
  reserveSize : Nat
  txPublicKey : Hash
  reward : Nat
  cumulativeSize : Nat
  fee : Nat
  deriving DecidableEq, Repr

def coinbaseRebuildTries : Nat := 10
def coinbaseMaxOutputs : Nat := 11
def maxReserveSize : Nat := 255

/-- The parent of a daemon template: major version 0 and an empty coinbase whose extra is
a merge-mining tag for the miner to fill. -/
def daemonTemplateParentBlock : ParentBlock :=
  ⟨0,0,ByteVec.zero 32,1,[],⟨0,0,[],[],appendMergeMiningTag [] ⟨0,ByteVec.zero 32⟩⟩,[]⟩

def coinbaseSize (tx : Transaction) : Nat :=
  match tx.toBytes with
  | .ok b => b.length
  | .error _ => 0

def Transaction.withExtra (tx : Transaction) (extra : Bytes) : Transaction :=
  { tx with body := { tx.body with extra } }

def rebuildCoinbase (build : Nat → Except MinerTxError (Transaction × MinerTx))
    (transactionsSize : Nat) : Nat → Nat → Except TemplateError (Transaction × MinerTx × Nat)
  | 0, _ => .error .coinbaseUnstable
  | tries+1, cumulativeSize => do
    let (coinbase,miner) ← (build cumulativeSize).mapError .minerTx
    let blobSize := coinbaseSize coinbase
    let budget := cumulativeSize - transactionsSize
    if budget < blobSize then rebuildCoinbase build transactionsSize tries (transactionsSize+blobSize)
    else if blobSize < budget then
      let delta := budget - blobSize
      let padded := coinbase.withExtra (coinbase.body.extra ++ List.replicate delta 0)
      if cumulativeSize = transactionsSize + coinbaseSize padded then pure (padded,miner,cumulativeSize)
      else if cumulativeSize + 1 ≠ transactionsSize + coinbaseSize padded then
        .error (.coinbaseSizeMismatch cumulativeSize transactionsSize (coinbaseSize padded))
      else
        let popped := padded.withExtra padded.body.extra.dropLast
        if cumulativeSize ≠ transactionsSize + coinbaseSize popped then
          -- the byte taken off shortened the varint of the length too
          rebuildCoinbase build transactionsSize tries (cumulativeSize+(delta-1))
        else pure (popped,miner,cumulativeSize)
    else if cumulativeSize ≠ transactionsSize + coinbaseSize coinbase then
      .error (.coinbaseSizeMismatch cumulativeSize transactionsSize (coinbaseSize coinbase))
    else pure (coinbase,miner,cumulativeSize)

/-- The offset of the reserved bytes: past the key, the tag and the length of the nonce. -/
def placeReserve (blob : Bytes) (txPublicKey : Hash) (reserve : Bytes) : Except TemplateError Nat :=
  if reserve = [] then .ok 0
  else
    let at' := (findSubslice blob txPublicKey.bytes).getD blob.length
    let offset := at' + 32 + 2
    if blob.length < offset + reserve.length then
      .error (.reserveDoesNotFit offset reserve.length blob.length)
    else .ok offset

def TemplateEnv.txKeys (env : TemplateEnv) (options : TemplateOptions) : Hash × Hash :=
  options.txKey.getD env.generateKeys

def TemplateEnv.now (env : TemplateEnv) (options : TemplateOptions) : Nat :=
  options.now.getD env.systemTime

def blobReserve (reserveSize : Nat) (extraNonce : Option Bytes) : Bytes :=
  extraNonce.getD (List.replicate reserveSize 0)

def templateBlock (ctx : TemplateContext) (transactions : List TemplateTransaction) (now : Nat)
    (baseTransaction : Transaction) : BlockTemplate where
  majorVersion := ctx.majorVersion
  minorVersion := ctx.minorVersion
  timestamp := ctx.clampTimestamp now
  previousBlockHash := ctx.previousBlockHash
  nonce := 0
  parentBlock :=
    if blockMajorVersion2 ≤ ctx.majorVersion then some daemonTemplateParentBlock else none
  baseTransaction
  transactionHashes := transactions.map (·.hash)

def buildTemplateFromContext (cx : Crypto) (env : TemplateEnv) (ctx : TemplateContext)
    (transactions : List TemplateTransaction) (walletAddress : Bytes) (reserveSize : Nat)
    (extraNonce : Option Bytes) (options : TemplateOptions) :
    Except TemplateError BlockTemplateResult := do
  let address ← (Base58.parseAddress cx walletAddress).mapError .badAddress
  let reserve := blobReserve reserveSize extraNonce
  refuseIf (maxReserveSize < reserve.length) (.reserveTooBig reserve.length)
  let transactionsSize := (transactions.map (·.blob.length)).sum
  let fee := (transactions.map (·.fee)).foldl wrappingAdd 0
  let build := fun currentBlockSize =>
    constructMinerTx env.toOneTimeKeys ctx.majorVersion ctx.height ctx.medianSize
      ctx.alreadyGeneratedCoins currentBlockSize fee address.viewPublicKey address.spendPublicKey
      reserve coinbaseMaxOutputs (env.txKeys options)
  let (first,_) ← (build transactionsSize).mapError .minerTx
  let (coinbase,miner,cumulativeSize) ← rebuildCoinbase build transactionsSize coinbaseRebuildTries
    (transactionsSize + coinbaseSize first)
  let block := templateBlock ctx transactions (env.now options) coinbase
  let blob ← (block.toBytes cx).mapError .serialization
  let reservedOffset ← placeReserve blob miner.txPublicKey reserve
  pure ⟨blob,block,ctx.difficulty,ctx.height,reservedOffset,reserve.length,miner.txPublicKey,
    miner.reward,cumulativeSize,fee⟩

/-- The pool has lost what did not validate also when the template fails. -/
def buildTemplate (env : TemplateEnv) (chain : TemplateChain) (pool : TransactionPool cx)
    (walletAddress : Bytes) (reserveSize : Nat) (extraNonce : Option Bytes)
    (options : TemplateOptions) : Except TemplateError BlockTemplateResult × TransactionPool cx :=
  match TemplateContext.fromChain chain with
  | .error e => (.error (.context e),pool)
  | .ok ctx =>
    let (selected,pool) := fillBlockTemplate pool chain ctx
    (buildTemplateFromContext cx env ctx selected walletAddress reserveSize extraNonce options,pool)

/-- What a `TemplateContextCache` holds: a context and the tip it was read at. -/
structure HeldContext where
  index : Nat
  hash : Hash
  ctx : TemplateContext
  read : ∃ chain : TemplateChain, chain.InRange ∧ chain.topIndex = index ∧
    chain.topBlockHash = hash ∧ TemplateContext.fromChain chain = .ok ctx

/-- `TemplateContextCache::context`: what the cache holds afterwards. -/
def cachedContext (held : Option HeldContext) (chain : TemplateChain) (hchain : chain.InRange) :
    Except ContextError HeldContext :=
  match held.filter fun kept => kept.index = chain.topIndex ∧ kept.hash = chain.topBlockHash with
  | some kept => .ok kept
  | none =>
    match h : TemplateContext.fromChain chain with
    | .error e => .error e
    | .ok ctx => .ok ⟨_,_,ctx,chain,hchain,rfl,rfl,h⟩

def buildTemplateCached (env : TemplateEnv) (chain : TemplateChain) (hchain : chain.InRange)
    (pool : TransactionPool cx) (held : Option HeldContext) (walletAddress : Bytes)
    (reserveSize : Nat) (extraNonce : Option Bytes) (options : TemplateOptions) :
    Except TemplateError BlockTemplateResult × TransactionPool cx × Option HeldContext :=
  match cachedContext held chain hchain with
  | .error e => (.error (.context e),pool,held)
  | .ok kept =>
    let (selected,pool) := fillBlockTemplate pool chain kept.ctx
    (buildTemplateFromContext cx env kept.ctx selected walletAddress reserveSize extraNonce options,
      pool,some kept)

@[simp] theorem Transaction.withExtra_extra (tx : Transaction) (extra : Bytes) :
    (tx.withExtra extra).body.extra = extra := rfl

@[simp] theorem Transaction.withExtra_withExtra (tx : Transaction) (extra extra' : Bytes) :
    (tx.withExtra extra).withExtra extra' = tx.withExtra extra' := rfl

@[simp] theorem Transaction.withExtra_self (tx : Transaction) : tx.withExtra tx.body.extra = tx := rfl

/-- A coinbase built for the size it fills, with zeroes behind its extra. -/
def SettlesAt (build : Nat → Except MinerTxError (Transaction × MinerTx))
    (transactionsSize cumulativeSize : Nat) (coinbase : Transaction) (miner : MinerTx) : Prop :=
  ∃ built zeroes, build cumulativeSize = .ok (built,miner) ∧
    coinbase = built.withExtra (built.body.extra ++ List.replicate zeroes 0) ∧
    cumulativeSize = transactionsSize + coinbaseSize coinbase

variable {transactions : List TemplateTransaction} {xs : List Nat} {coinbase : Transaction}
  {ctx : TemplateContext} {chain : TemplateChain} {b : BlockTemplate} {blob : Bytes} {bound : Nat}

theorem rebuildCoinbase_settles {build : Nat → Except MinerTxError (Transaction × MinerTx)}
    {transactionsSize tries start cumulativeSize : Nat} {miner : MinerTx}
    (h : rebuildCoinbase build transactionsSize tries start = .ok (coinbase,miner,cumulativeSize)) :
    SettlesAt build transactionsSize cumulativeSize coinbase miner := by
  induction tries generalizing start with
  | zero => cases h
  | succ tries ih =>
    simp only [rebuildCoinbase, bind_ok_iff, mapError_ok_iff] at h
    obtain ⟨⟨built,found⟩,hbuilt,h⟩ := h
    dsimp only at h
    split at h
    · exact ih h
    split at h
    · split at h
      · rename_i hfits
        cases h
        exact ⟨built,_,hbuilt,rfl,hfits⟩
      split at h
      · cases h
      split at h
      · exact ih h
      · rename_i hpad _ _ hfits
        cases h
        refine ⟨built,cumulativeSize - transactionsSize - coinbaseSize built - 1,hbuilt,?_,not_not.1 hfits⟩
        rw [Transaction.withExtra_withExtra, Transaction.withExtra_extra,
          dropLast_append_of_ne_nil (by simp; omega), dropLast_replicate]
    · split at h
      · cases h
      · rename_i hfits
        cases h
        exact ⟨_,0,hbuilt,by simp,not_not.1 hfits⟩

theorem checkedSum_of_lt {start : Nat} (h : start + xs.sum < 2 ^ 64) :
    checkedSum start xs = some (start + xs.sum) := by
  induction xs generalizing start with
  | nil => rfl
  | cons x xs ih =>
    rw [sum_cons] at h ⊢
    rw [checkedSum_cons, checkedAdd, if_pos (by omega), Option.bind_some, ih (by omega),
      Nat.add_assoc]

structure IsTemplate (cx : Crypto) (env : TemplateEnv) (ctx : TemplateContext)
    (transactions : List TemplateTransaction) (reserve : Bytes) (options : TemplateOptions)
    (t : BlockTemplateResult) : Prop where
  height : t.height = ctx.height
  block : t.block = templateBlock ctx transactions (env.now options) t.block.baseTransaction
  bytes : t.block.toBytes cx = .ok t.blob
  offset : placeReserve t.blob t.txPublicKey reserve = .ok t.reservedOffset
  fee : t.fee = (transactions.map (·.fee)).sum % 2 ^ 64
  size : t.cumulativeSize =
    (transactions.map (·.blob.length)).sum + coinbaseSize t.block.baseTransaction
  coinbase : ∃ built zeroes, t.block.baseTransaction =
      built.withExtra (built.body.extra ++ List.replicate zeroes 0) ∧
    PaysReward ctx.majorVersion ctx.height ctx.medianSize ctx.alreadyGeneratedCoins t.cumulativeSize
      t.fee reserve t.txPublicKey built ⟨t.reward,t.txPublicKey⟩

theorem buildTemplateFromContext_isTemplate {env : TemplateEnv} {walletAddress : Bytes}
    {reserveSize : Nat} {extraNonce : Option Bytes} {options : TemplateOptions}
    {t : BlockTemplateResult}
    (h : buildTemplateFromContext cx env ctx transactions walletAddress reserveSize extraNonce
      options = .ok t) :
    IsTemplate cx env ctx transactions (blobReserve reserveSize extraNonce) options t := by
  simp only [buildTemplateFromContext, bind_ok_iff, refuseIf_ok_iff, mapError_ok_iff] at h
  obtain ⟨address,_,_,_,⟨first,_⟩,_,⟨coinbase,miner,cumulativeSize⟩,hloop,blob,hblob,offset,
    hoffset,heq⟩ := h
  cases heq
  obtain ⟨built,zeroes,hbuilt,hcoinbase,hsize⟩ := rebuildCoinbase_settles hloop
  have hpays := constructMinerTx_pays hbuilt
  have hkey := hpays.key
  obtain ⟨reward,key⟩ := miner
  have hkey : key = (env.txKeys options).2 := hpays.key
  subst hkey
  exact ⟨rfl,rfl,hblob,hoffset,by simp [foldl_wrappingAdd],hsize,built,zeroes,hcoinbase,hpays⟩

theorem daemonTemplateParentBlock_encodable : daemonTemplateParentBlock.Encodable where
  majorVersion := by decide
  minorVersion := by decide
  transactionCount := by decide
  body := by
    refine ⟨⟨by decide,by decide,?_,?_⟩,⟨by decide,?_,by decide,by decide⟩⟩ <;>
      intro i hi <;> cases hi

theorem minorVersionFor_lt (majorVersion : Nat) : minorVersionFor majorVersion < 2 ^ 8 := by
  simp [minorVersionFor, v2Undefined, v3Undefined, blockMinorVersion0]

theorem sortNat_getD_lt (hpos : 0 < bound) (h : ∀ x ∈ xs, x < bound)
    (i : Nat) : (sortNat xs).getD i 0 < bound := by
  rw [getD_eq_getElem?_getD]
  cases hget : (sortNat xs)[i]? with
  | none => exact hpos
  | some x =>
    have hmem := mem_of_getElem? hget
    exact h x ((perm_insertionSort _ xs).mem_iff.1 hmem)

theorem medianValue_lt (hpos : 0 < bound) (h : ∀ x ∈ xs, x < bound) : medianValue xs < bound := by
  have hget := sortNat_getD_lt hpos h
  unfold medianValue
  split
  · exact hpos
  · exact h _ (by simp)
  · dsimp only
    split
    · exact hget _
    · have hlow := hget (xs.length / 2 - 1)
      have hhigh := hget (xs.length / 2)
      omega

theorem readInfos_mem {indexes : List Nat} {infos : List BlockInfo}
    (h : readInfos chain indexes = .ok infos) :
    ∀ info ∈ infos, ∃ i, chain.blockInfoAt i = some info := by
  induction indexes generalizing infos with
  | nil =>
    cases h
    simp
  | cons i rest ih =>
    simp only [readInfos, bind_ok_iff, orRefuse_ok_iff] at h
    obtain ⟨info,hinfo,tail,htail,heq⟩ := h
    cases heq
    intro x hx
    rcases mem_cons.1 hx with rfl | hx
    · exact ⟨i,hinfo⟩
    · exact ih htail x hx

namespace TemplateContext

variable {chain : TemplateChain} {ctx : TemplateContext}

theorem timestampMedian_lt (hchain : chain.InRange) {height median : Nat}
    (h : templateTimestampMedian chain height = .ok (some median)) : median < 2 ^ 64 := by
  unfold templateTimestampMedian at h
  dsimp only at h
  split at h
  · cases h
  · simp only [bind_ok_iff] at h
    obtain ⟨infos,hinfos,heq⟩ := h
    cases heq
    refine medianValue_lt (by norm_num) fun x hx => ?_
    obtain ⟨info,hinfo,rfl⟩ := mem_map.1 hx
    obtain ⟨i,hi⟩ := readInfos_mem hinfos info hinfo
    exact hchain.timestamp_lt i info hi

theorem fromChain_fields (h : fromChain chain = .ok ctx) : ctx.height = chain.topIndex + 1 ∧
      ctx.previousBlockHash = chain.topBlockHash ∧ ctx.minorVersion = minorVersionFor ctx.majorVersion ∧
      templateTimestampMedian chain (chain.topIndex+1) = .ok ctx.timestampMedian := by
  simp only [fromChain, bind_ok_iff, orRefuse_ok_iff] at h
  obtain ⟨_,_,_,_,median,hmedian,heq⟩ := h
  cases heq
  exact ⟨rfl,rfl,rfl,hmedian⟩

theorem clampTimestamp_lt {now : Nat} (hnow : now < 2 ^ 64)
    (h : ∀ median, ctx.timestampMedian = some median → median < 2 ^ 64) :
    ctx.clampTimestamp now < 2 ^ 64 := by
  unfold clampTimestamp
  split
  · rename_i median hmedian
    split
    · exact h median hmedian
    · exact hnow
  · exact hnow

end TemplateContext

theorem templateBlock_headEncodable {now : Nat}
    (hchain : chain.InRange) (hctx : TemplateContext.fromChain chain = .ok ctx)
    (hnow : now < 2 ^ 64) : (templateBlock ctx transactions now coinbase).HeadEncodable := by
  obtain ⟨_,_,hminor,hmedian⟩ := TemplateContext.fromChain_fields hctx
  refine ⟨?_,?_,by norm_num [templateBlock],fun pb hpb => ?_,fun hfirst => ?_⟩
  · change ctx.minorVersion < 2 ^ 8
    rw [hminor]
    exact minorVersionFor_lt _
  · exact TemplateContext.clampTimestamp_lt hnow fun median h =>
      TemplateContext.timestampMedian_lt hchain (by rw [hmedian, h])
  · simp only [templateBlock] at hpb
    split at hpb
    · cases hpb
      exact daemonTemplateParentBlock_encodable
    · cases hpb
  · change ctx.majorVersion = blockMajorVersion1 at hfirst
    simp [templateBlock, hfirst, blockMajorVersion1, blockMajorVersion2]

def BlockTemplate.withExtra (b : BlockTemplate) (extra : Bytes) : BlockTemplate :=
  { b with baseTransaction := b.baseTransaction.withExtra extra }

theorem Transaction.toBytes_withExtra {tx : Transaction} {data : Bytes} (hsigs : tx.signatures = [])
    (h : tx.toBytes = .ok data) (extra : Bytes) :
    (tx.withExtra extra).toBytes = .ok (tx.withExtra extra).body.write := by
  unfold Transaction.toBytes at h ⊢
  rw [if_pos hsigs] at h
  rw [if_pos (show (tx.withExtra extra).signatures = [] from hsigs)]
  simp only [bind_ok_iff, refuseIf_ok_iff] at h ⊢
  exact ⟨⟨⟩,h.choose_spec.1,rfl⟩

section

variable (hsigs : b.baseTransaction.signatures = []) (h : b.toBytes cx = .ok blob)
include hsigs h

theorem BlockTemplate.toBytes_withExtra :
    ∃ before after, ∀ extra : Bytes, extra.length = b.baseTransaction.body.extra.length →
      (b.withExtra extra).toBytes cx = .ok (before ++ (extra ++ after)) := by
  obtain ⟨hknown,parent,coinbase,hparent,hbytes,_⟩ := toBytes_ok_iff.1 h
  let p := b.baseTransaction.body
  refine ⟨b.writeHeader ++ parent ++ (Writer.varint p.version ++ Writer.varint p.unlockTime ++
    Writer.varint p.inputs.length ++ p.inputs.flatMap Input.write ++
    Writer.varint p.outputs.length ++ p.outputs.flatMap Output.write ++
    Writer.varint p.extra.length),Writer.varint b.transactionHashes.length ++
    Writer.hashes b.transactionHashes,fun extra hlen => ?_⟩
  refine toBytes_ok_iff.2 ⟨hknown,parent,_,hparent,Transaction.toBytes_withExtra hsigs hbytes extra,?_⟩
  simp only [withExtra, Transaction.withExtra, TransactionPrefix.write, Writer.bytes, hlen,
    append_assoc, p]
  rfl

theorem BlockTemplate.counts_le :
    b.baseTransaction.body.outputs.length ≤ blob.length ∧
      b.baseTransaction.body.extra.length ≤ blob.length ∧
      b.transactionHashes.length ≤ blob.length := by
  obtain ⟨_,parent,coinbase,_,hbytes,rfl⟩ := toBytes_ok_iff.1 h
  have houts := length_flatMap_ge b.baseTransaction.body.outputs fun o _ => o.write_length
  have hhashes := length_flatMap_ge b.transactionHashes fun x _ => le_of_eq x.length_eq.symm
  have hcoinbase := Transaction.toBytes_eq hbytes
  rw [hsigs, flatMap_nil, append_nil] at hcoinbase
  simp only [hcoinbase, TransactionPrefix.write, Writer.bytes, Writer.hashes, length_append]
  omega

end

section Reserve

variable {env : TemplateEnv} {chain : TemplateChain} {ctx : TemplateContext}
  {transactions : List TemplateTransaction} {reserve : Bytes} {options : TemplateOptions}
  {t : BlockTemplateResult}

section

variable (h : IsTemplate cx env ctx transactions reserve options t)
include h

theorem IsTemplate.baseTransaction :
    ∃ outputs extra, t.block.baseTransaction = minerCoinbase ctx.height outputs extra ∧
      (outputs.map Output.amount).sum = t.reward := by
  obtain ⟨built,zeroes,hbase,hpays⟩ := h.coinbase
  obtain ⟨outputs,extra,rfl⟩ := hpays.body
  exact ⟨outputs,_,hbase,hpays.outputs⟩

theorem IsTemplate.reward_lt : t.reward < 2 ^ 64 := by
  obtain ⟨built,zeroes,_,hpays⟩ := h.coinbase
  obtain ⟨r,hr,hreward⟩ := hpays.reward
  exact lt_of_eq_of_lt hreward (getBlockReward_lt hr)

/-- How the bytes of a template read, whatever stands in place of the coinbase's extra. -/
theorem IsTemplate.fromBytes_withExtra (hctx : TemplateContext.fromChain chain = .ok ctx)
    (hchain : chain.InRange) (hnow : env.now options < 2 ^ 64) (hlen : t.blob.length < 2 ^ 64)
    {extra blob : Bytes} (hextra : extra.length = t.block.baseTransaction.body.extra.length)
    (hblob : (t.block.withExtra extra).toBytes cx = .ok blob) :
    fromBytes blob =
      if ctx.height < 2 ^ 32 then .ok (t.block.withExtra extra) else .error .badVarint := by
  obtain ⟨outputs,old,hbase,hsum⟩ := h.baseTransaction
  have hheight := (TemplateContext.fromChain_fields hctx).1
  have htop := hchain.topIndex_lt
  have hhead : (t.block.withExtra extra).HeadEncodable := by
    rw [h.block]
    exact templateBlock_headEncodable hchain hctx hnow
  obtain ⟨houts,hold,hhashes⟩ := counts_le (by rw [hbase]; rfl) h.bytes
  have hcoinbase : (t.block.withExtra extra).baseTransaction =
      minerCoinbase ctx.height outputs extra := by
    rw [withExtra, hbase]
    rfl
  have hcount : outputs.length ≤ t.blob.length := by
    rw [hbase] at houts
    exact houts
  split
  · rename_i hsmall
    have hsum : (outputs.map Output.amount).sum < 2 ^ 64 := hsum ▸ h.reward_lt
    refine fromBytes_toBytes hhead ?_ ?_ ?_ ?_ (lt_of_le_of_lt hhashes hlen) hblob
    all_goals rw [hcoinbase]
    · exact minerCoinbase_encodable hsmall hsum (by omega) (by omega)
    · exact le_refl currentTransactionVersion
    · rfl
    · rfl
  · rename_i hbig
    have hpast : ctx.height = 2 ^ 32 := by omega
    refine fromBytes_past_u32 hhead ?_ ?_ ?_ ?_ hblob
    all_goals rw [hcoinbase, hpast]
    · exact (by decide : currentTransactionVersion < 2 ^ 8)
    · exact (by decide : 2 ^ 32 + cryptonoteMinedMoneyUnlockWindow < 2 ^ 64)
    · rfl
    · rfl

end

/-- Where the nonce bytes stand in the extra of a template's coinbase. -/
def reserveStart : Nat := 1 + 32 + 2

theorem extraHead_length (key : Hash) (n : Nat) : (extraHead key n).length = reserveStart := by
  simp [extraHead, key.length_eq, reserveStart]

theorem IsTemplate.extra_eq (h : IsTemplate cx env ctx transactions reserve options t)
    (hne : reserve ≠ []) : ∃ zeroes, t.block.baseTransaction.body.extra =
      extraHead t.txPublicKey reserve.length ++ (reserve ++ replicate zeroes 0) := by
  obtain ⟨built,zeroes,hbase,hpays⟩ := h.coinbase
  refine ⟨zeroes,?_⟩
  rw [hbase, Transaction.withExtra_extra, hpays.extra hne, append_assoc]

theorem placeReserve_eq {before after : Bytes} {key : Hash} {offset : Nat} (hne : reserve ≠ [])
    (honce : occurrences (before ++ (extraHead key reserve.length ++ after)) key.bytes = 1)
    (h : placeReserve (before ++ (extraHead key reserve.length ++ after)) key reserve = .ok offset) :
    offset = (before ++ extraHead key reserve.length).length := by
  have hkey : key.bytes ≠ [] := fun hnil => by simpa [hnil] using key.length_eq
  have hsplit : before ++ (extraHead key reserve.length ++ after) =
      (before ++ [txExtraTagPubkey]) ++ (key.bytes ++
        ([txExtraNonce,UInt8.ofNat reserve.length] ++ after)) := by
    simp [extraHead]
  have hfound := findSubslice_of_occurrences hkey honce (by rw [hsplit]; exact window_append)
  unfold placeReserve at h
  rw [if_neg hne, hfound] at h
  dsimp only at h
  split at h
  · cases h
  · cases h
    simp only [length_append, extraHead_length, reserveStart, length_singleton, Option.getD_some]

variable (h : IsTemplate cx env ctx transactions reserve options t)
include h

theorem IsTemplate.blob_eq
    (hne : reserve ≠ []) (honce : occurrences t.blob t.txPublicKey.bytes = 1) :
    ∃ before zeroes after, t.reservedOffset = before.length ∧
      t.blob = before ++ (reserve ++ (replicate zeroes 0 ++ after)) ∧
      t.block.baseTransaction.body.extra =
        extraHead t.txPublicKey reserve.length ++ (reserve ++ replicate zeroes 0) ∧
      ∀ w : Bytes, w.length = reserve.length →
        (t.block.withExtra (extraHead t.txPublicKey reserve.length ++
          (w ++ replicate zeroes 0))).toBytes cx =
          .ok (before ++ (w ++ (replicate zeroes 0 ++ after))) := by
  obtain ⟨zeroes,hextra⟩ := h.extra_eq hne
  obtain ⟨outputs,old,hbase,_⟩ := h.baseTransaction
  obtain ⟨before,after,hbytes⟩ := toBytes_withExtra (by rw [hbase]; rfl) h.bytes
  have hwritten (w : Bytes) (hw : w.length = reserve.length) :
      (t.block.withExtra (extraHead t.txPublicKey reserve.length ++
        (w ++ replicate zeroes 0))).toBytes cx =
        .ok ((before ++ extraHead t.txPublicKey reserve.length) ++
          (w ++ (replicate zeroes 0 ++ after))) := by
    rw [hbytes _ (by rw [hextra]; simp [hw])]
    simp only [append_assoc]
  have hblob : t.blob = (before ++ extraHead t.txPublicKey reserve.length) ++
      (reserve ++ (replicate zeroes 0 ++ after)) := by
    have hsame := hwritten reserve rfl
    rw [← hextra] at hsame
    exact Except.ok.inj (h.bytes.symm.trans hsame)
  refine ⟨_,zeroes,after,?_,hblob,hextra,hwritten⟩
  have hoffset := h.offset
  rw [hblob, append_assoc] at honce hoffset
  exact placeReserve_eq hne honce hoffset

theorem IsTemplate.outputTotal :
    ∃ r, getBlockReward ctx.majorVersion ctx.medianSize t.cumulativeSize ctx.alreadyGeneratedCoins
      t.fee ctx.height = some r ∧ t.block.coinbaseOutputTotal = some r.reward := by
  obtain ⟨built,zeroes,hbase,hpays⟩ := h.coinbase
  obtain ⟨r,hr,hreward⟩ := hpays.reward
  refine ⟨r,hr,?_⟩
  have hsum : (t.block.baseTransaction.body.outputs.map Output.amount).sum = r.reward := by
    rw [hbase, ← hreward]
    exact hpays.outputs
  have hlt := getBlockReward_lt hr
  rw [coinbaseOutputTotal, TransactionPrefix.sumOutputs,
    checkedSum_of_lt (by omega), hsum, Nat.zero_add]

theorem IsTemplate.coinbase_length :
    ∃ data, t.block.baseTransaction.toBytes = .ok data ∧
      t.cumulativeSize = data.length + (transactions.map (·.blob.length)).sum := by
  obtain ⟨_,_,data,_,hdata,_⟩ := toBytes_ok_iff.1 h.bytes
  refine ⟨data,hdata,?_⟩
  rw [h.size, coinbaseSize, hdata, Nat.add_comm]

/-- Writing over the reserved bytes changes the same bytes of the parsed block. -/
theorem IsTemplate.fromBytes_overwrite (hctx : TemplateContext.fromChain chain = .ok ctx)
    (hchain : chain.InRange) (hnow : env.now options < 2 ^ 64) (hlen : t.blob.length < 2 ^ 64)
    (hne : reserve ≠ []) (honce : occurrences t.blob t.txPublicKey.bytes = 1) {w : Bytes}
    (hw : w.length = reserve.length) :
    fromBytes (overwrite t.blob t.reservedOffset w) =
      (fromBytes t.blob).map fun b =>
        b.withExtra (overwrite b.baseTransaction.body.extra reserveStart w) := by
  obtain ⟨before,zeroes,after,hoffset,hblob,hextra,hwritten⟩ := h.blob_eq hne honce
  have hread := h.fromBytes_withExtra hctx hchain hnow hlen rfl
    (show (t.block.withExtra t.block.baseTransaction.body.extra).toBytes cx = .ok t.blob from h.bytes)
  have hread' := h.fromBytes_withExtra hctx hchain hnow hlen (by rw [hextra]; simp [hw])
    (hwritten w hw)
  have hover : overwrite t.blob t.reservedOffset w =
      before ++ (w ++ (replicate zeroes 0 ++ after)) := by
    rw [hoffset, hblob, overwrite_append hw]
  rw [hover, hread, hread']
  split
  · have hinner : overwrite t.block.baseTransaction.body.extra reserveStart w =
        extraHead t.txPublicKey reserve.length ++ (w ++ replicate zeroes 0) := by
      rw [hextra, ← extraHead_length t.txPublicKey reserve.length, overwrite_append hw]
    rw [← hinner]
    rfl
  · rfl

end Reserve

theorem cachedContext_tip {held : Option HeldContext} {chain : TemplateChain}
    {hchain : chain.InRange} {kept : HeldContext} (h : cachedContext held chain hchain = .ok kept) :
    kept.index = chain.topIndex ∧ kept.hash = chain.topBlockHash := by
  unfold cachedContext at h
  split at h
  · rename_i hkept
    cases h
    simpa using (Option.filter_eq_some_iff.1 hkept).2
  · split at h
    · cases h
    · cases h
      exact ⟨rfl,rfl⟩

/-- A template extends the tip, from whichever call its context was kept. -/
theorem buildTemplateCached_onTip {env : TemplateEnv} {chain : TemplateChain}
    {hchain : chain.InRange} {pool : TransactionPool cx} {held : Option HeldContext}
    {walletAddress : Bytes} {reserveSize : Nat} {extraNonce : Option Bytes}
    {options : TemplateOptions} {t : BlockTemplateResult} (hnow : env.now options < 2 ^ 64)
    (h : (buildTemplateCached env chain hchain pool held walletAddress reserveSize extraNonce
      options).1 = .ok t) :
    t.height = chain.topIndex + 1 ∧
      ∀ block, fromBytes t.blob = .ok block → block.previousBlockHash = chain.topBlockHash := by
  unfold buildTemplateCached at h
  split at h
  · cases h
  rename_i kept hkept
  obtain ⟨hindex,hhash⟩ := cachedContext_tip hkept
  obtain ⟨source,hsource,htop,hprevious,hctx⟩ := kept.read
  obtain ⟨hheight,hctxPrevious,_⟩ := TemplateContext.fromChain_fields hctx
  have ht := buildTemplateFromContext_isTemplate h
  refine ⟨?_,fun block hblock => ?_⟩
  · rw [ht.height, hheight, htop, hindex]
  · have hhead : t.block.HeadEncodable := by
      rw [ht.block]
      exact templateBlock_headEncodable hsource hctx hnow
    rw [previousBlockHash_of_fromBytes hhead ht.bytes hblock, ht.block, ← hhash, ← hprevious]
    exact hctxPrevious

/-- A template that is built has the size its coinbase and its transactions take and pays
the reward of that size. The reserved bytes stand at the offset it names, and other bytes
written over them change nothing else of what the blob parses to. -/
theorem template_settles {env : TemplateEnv} {chain : TemplateChain} {pool pool' : TransactionPool cx}
    {walletAddress : Bytes} {reserveSize : Nat} {extraNonce : Option Bytes}
    {options : TemplateOptions} {t : BlockTemplateResult} (hchain : chain.InRange)
    (hnow : env.now options < 2 ^ 64) (hlen : t.blob.length < 2 ^ 64)
    (h : buildTemplate env chain pool walletAddress reserveSize extraNonce options = (.ok t,pool')) :
    ∃ ctx, TemplateContext.fromChain chain = .ok ctx ∧
      let selected := (fillBlockTemplate pool chain ctx).1
      let reserve := blobReserve reserveSize extraNonce
      t.block.transactionHashes = selected.map (·.hash) ∧
      (∃ coinbase, t.block.baseTransaction.toBytes = .ok coinbase ∧
        t.cumulativeSize = coinbase.length + (selected.map (·.blob.length)).sum) ∧
      (∃ r, getBlockReward ctx.majorVersion ctx.medianSize t.cumulativeSize
          ctx.alreadyGeneratedCoins ((selected.map (·.fee)).sum % 2 ^ 64) ctx.height = some r ∧
        t.block.coinbaseOutputTotal = some r.reward) ∧
      (ctx.height < 2 ^ 32 → fromBytes t.blob = .ok t.block) ∧
      (1 ≤ reserve.length → occurrences t.blob t.txPublicKey.bytes = 1 →
        window t.blob t.reservedOffset reserve.length = reserve ∧
        ∀ w : Bytes, w.length = reserve.length →
          fromBytes (overwrite t.blob t.reservedOffset w) =
            (fromBytes t.blob).map fun b =>
              b.withExtra (overwrite b.baseTransaction.body.extra reserveStart w)) := by
  unfold buildTemplate at h
  split at h
  · cases h
  rename_i ctx hctx
  have ht := buildTemplateFromContext_isTemplate (congrArg Prod.fst h)
  refine ⟨ctx,hctx,?_,ht.coinbase_length,?_,fun hheight => ?_,fun hpos honce => ⟨?_,fun w hw => ?_⟩⟩
  · rw [ht.block]
    rfl
  · rw [← ht.fee]
    exact ht.outputTotal
  · have hread := ht.fromBytes_withExtra hctx hchain hnow hlen rfl
      (show (t.block.withExtra t.block.baseTransaction.body.extra).toBytes cx = .ok t.blob from
        ht.bytes)
    rwa [if_pos hheight] at hread
  · obtain ⟨before,zeroes,after,hoffset,hblob,_,_⟩ :=
      ht.blob_eq (List.length_pos_iff.1 hpos) honce
    rw [hoffset, hblob, window_append]
  · exact ht.fromBytes_overwrite hctx hchain hnow hlen (List.length_pos_iff.1 hpos) honce hw

def sampleMining : TemplateChain where
  toPoolChain := samplePoolChain
  blockInfoAt i := if i = 0 then (sampleNode defaultConfig samplePoolZone 1000).tipInfo else none
  fixedDifficulty := some simnetDifficulty

theorem sampleMining_inRange : sampleMining.InRange where
  topIndex_lt := by decide +kernel
  timestamp_lt i info h := by
    have hall : (sampleNode defaultConfig samplePoolZone 1000).tipInfo.all
        (fun info => decide (info.timestamp < 2 ^ 64)) = true := by decide +kernel
    change (if i = 0 then (sampleNode defaultConfig samplePoolZone 1000).tipInfo else none) = some info
      at h
    split at h
    · rw [h] at hall
      exact of_decide_eq_true hall
    · cases h

def sampleMinerEnv : TemplateEnv where
  generateKeyDerivation view secret := some (mixHash (view.bytes ++ secret.bytes))
  derivePublicKey derivation index spend :=
    some (mixHash (derivation.bytes ++ UInt8.ofNat index :: spend.bytes))
  generateKeys := (mixHash [3],mixHash [4])
  systemTime := 1000

def sampleMiningPool : TransactionPool sampleCrypto :=
  runPool samplePoolOps (TransactionPool.new sampleCrypto {})

def sampleAddress : Bytes := Base58.standardAddress sampleCrypto (mixHash [1]) (mixHash [2])

def sampleBuild : Except TemplateError BlockTemplateResult × TransactionPool sampleCrypto :=
  buildTemplate sampleMinerEnv sampleMining sampleMiningPool sampleAddress 0 (some [1,2,3,4]) {}

def sampleBuilt (t : BlockTemplateResult) : Bool :=
  t.blob.length < 2 ^ 64 && t.block.transactionHashes.length = 1 &&
    occurrences t.blob t.txPublicKey.bytes = 1

theorem template_settles_sample : ∃ t pool', sampleBuild = (.ok t,pool') ∧ sampleBuilt t = true ∧
    window t.blob t.reservedOffset 4 = [1,2,3,4] ∧
    fromBytes (overwrite t.blob t.reservedOffset [9,9,9,9]) =
      (fromBytes t.blob).map fun b =>
        b.withExtra (overwrite b.baseTransaction.body.extra reserveStart [9,9,9,9]) := by
  have hall : (sampleBuild.1.toOption.map sampleBuilt) = some true := by decide +kernel
  obtain ⟨t,ht,hbuilt⟩ := Option.map_eq_some_iff.1 hall
  have hok : sampleBuild = (.ok t,sampleBuild.2) := by
    cases hrun : sampleBuild.1 with
    | error e =>
      rw [hrun] at ht
      cases ht
    | ok t' =>
      rw [hrun] at ht
      cases ht
      rw [← hrun]
  have hfacts := hbuilt
  simp only [sampleBuilt, Bool.and_eq_true, decide_eq_true_eq] at hfacts
  obtain ⟨ctx,_,_,_,_,_,hreserve⟩ :=
    template_settles sampleMining_inRange (by decide) hfacts.1.1 hok
  obtain ⟨hwindow,hover⟩ := hreserve (by decide) hfacts.2
  exact ⟨t,_,hok,hbuilt,hwindow,hover _ rfl⟩

end Wrkz
