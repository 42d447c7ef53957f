import Wrkz.Mempool.Consistent
import Wrkz.Node.Sync

/-!
The request for a peer's pool names every transaction of the sender's pool. The pool
is bounded in bytes, the list in entries: the request is taken exactly while the pool
holds no more than `maxHashes` transactions.
-/

set_option autoImplicit false

namespace Wrkz

open Library TransactionPool List

variable {cx : Crypto}

/-- The payload of `request_missing_pool_transactions`. -/
def TransactionPool.requestMissingPoolTransactions (pool : TransactionPool cx) : Bytes :=
  requestTxPool pool.hashes

def takeRequestTxPool (payload : Bytes) : Except Offence (List Hash) :=
  if maxInboundPayload .notifyRequestTxPool < payload.length then .error .oversized
  else (parseRequestTxPool payload).mapError fun _ => .malformed

theorem writeVarint_length_le (v : Nat) : (Kv.writeVarint v).length ≤ 8 := by
  unfold Kv.writeVarint
  split_ifs <;> rw [Kv.littleEndian_length] <;> omega

theorem requestTxPool_length (hashes : List Hash) :
    32*hashes.length ≤ (requestTxPool hashes).length ∧
      (requestTxPool hashes).length ≤ 32*hashes.length + 23 := by
  have hblob := hashesBlob_length hashes
  unfold requestTxPool Kv.Section.string
  by_cases hnil : hashesBlob hashes = []
  · rw [if_pos hnil]
    rw [hnil] at hblob
    have hlen : (Kv.encode []).length = 10 := rfl
    rw [hlen, ← hblob]
    decide
  · rw [if_neg hnil]
    have hvarint := writeVarint_length_le (hashesBlob hashes).length
    have hlen : (Kv.encode ([] ++ [(Kv.name "txs",.string (hashesBlob hashes))])).length =
        15 + (Kv.writeVarint (hashesBlob hashes).length).length + (hashesBlob hashes).length := by
      simp only [Kv.encode, Kv.writeSection, Kv.writeEntries, Kv.writeEntry, Kv.writeScalar,
        nil_append, length_append, length_cons, length_nil, append_nil]
      have h1 : Kv.header.length = 9 := rfl
      have h2 : (Kv.writeVarint (0+1)).length = 1 := rfl
      have h3 : (Kv.name "txs").length = 3 := by decide
      rw [h1, h2, h3]
      omega
    rw [hlen, hblob]
    rw [hblob] at hvarint
    omega

theorem takeRequestTxPool_eq (hashes : List Hash) :
    (hashes.length ≤ maxHashes → takeRequestTxPool (requestTxPool hashes) = .ok hashes) ∧
    (maxHashes < hashes.length → ∃ offence,
      takeRequestTxPool (requestTxPool hashes) = .error offence) := by
  obtain ⟨hge,hle⟩ := requestTxPool_length hashes
  have hcap : maxInboundPayload .notifyRequestTxPool = 324096 := rfl
  have hmax : maxHashes = 10000 := rfl
  unfold takeRequestTxPool
  rw [hcap]
  constructor
  · intro h
    rw [if_neg (by omega), parseRequestTxPool_requestTxPool (by omega), if_pos h]
    rfl
  · intro h
    by_cases hbig : 324096 < (requestTxPool hashes).length
    · rw [if_pos hbig]
      exact ⟨_,rfl⟩
    · rw [if_neg hbig, parseRequestTxPool_requestTxPool (by omega), if_neg (Nat.not_le.2 h)]
      exact ⟨_,rfl⟩

/-- The request a node makes of its pool is taken, and read as the pool's hashes, if and
only if the pool holds at most `maxHashes` transactions. -/
theorem requestMissingPoolTransactions_taken_iff (pool : TransactionPool cx) :
    (takeRequestTxPool pool.requestMissingPoolTransactions = .ok pool.hashes ↔
      pool.hashes.length ≤ maxHashes) ∧
    ((∃ offence, takeRequestTxPool pool.requestMissingPoolTransactions = .error offence) ↔
      maxHashes < pool.hashes.length) := by
  obtain ⟨hfew,hmany⟩ := takeRequestTxPool_eq pool.hashes
  unfold requestMissingPoolTransactions
  rcases Nat.lt_or_ge maxHashes pool.hashes.length with h | h
  · obtain ⟨offence,herror⟩ := hmany h
    rw [herror]
    exact ⟨⟨fun h => (by cases h),fun h' => absurd h (Nat.not_lt.2 h')⟩,fun _ => h,fun _ => ⟨_,rfl⟩⟩
  · rw [hfew h]
    exact ⟨⟨fun _ => h,fun _ => rfl⟩,fun ⟨_,h'⟩ => (by cases h'),fun h' => absurd h (Nat.not_le.2 h')⟩

namespace TransactionPool

variable {pool : TransactionPool cx} {p : ParsedTx cx} {chain : PoolChain} {source : PoolSource}

theorem addParsed_eq_insert {v : TxValidation} {state : ValidatorState}
    (hnew : pool.contains p.hash = false) (hcache : pool.rejected = .new)
    (hchain : chain.transactionInChain p.hash = false)
    (hdeleted : pool.recentlyDeleted.lookup p.hash = none) (hfee : p.transaction.transactionFee ≠ 0)
    (hfree : ∀ k ∈ p.transaction.body.keyImages, pool.keyImages.lookup k = none)
    (hroom : pool.sizeBytes + p.blob.length ≤ pool.cfg.maxSizeBytes)
    (hvalid : validateTransactionEarlyExit cx p.transaction p.blob .new chain.toChainAccess
      (txContext chain) = .ok (v,state)) :
    (pool.addParsed p chain source).2 =
      pool.insert (PoolEntry.validated p source pool.clock v) state.spentKeyImages := by
  have hconflict : pool.conflict (PoolEntry.of p source pool.clock).images = none := by
    refine findSome?_eq_none_iff.2 fun k hk => ?_
    rw [hfree k hk]
    rfl
  have hadmission : (pool.admission p chain source).2 = (pool.insert
      (PoolEntry.validated p source pool.clock v) state.spentKeyImages).evictToFit := by
    have hfusion : ¬ ((PoolEntry.of p source pool.clock).fee = 0 ∧
        pool.cfg.fusionMaxPoolCount ≤ pool.feeLess) := fun h => hfee h.1
    have hfull : ¬ (pool.cfg.maxSizeBytes <
        pool.sizeBytes + (PoolEntry.of p source pool.clock).size ∧
        pool.isLeastProfitable (PoolEntry.of p source pool.clock) = true) :=
      fun h => absurd h.1 (Nat.not_lt.2 hroom)
    unfold admission
    rw [if_neg (by simp [hchain]), if_neg (by simp [hdeleted])]
    simp only [if_neg hfusion, hconflict, if_neg hfull, hvalid]
  have hlookup : pool.rejected.lookup p.hash p.blob.length pool.clock pool.cfg.rejectionCacheTtl
      (ContextKey.of chain) = (none,pool.rejected) := by
    rw [hcache]
    rfl
  unfold addParsed
  rw [if_neg (by simp [hnew]), hlookup]
  simp only [hadmission]
  unfold evictToFit
  exact if_pos hroom

end TransactionPool

def imageCrypto : Crypto :=
  { sampleCrypto with
    cnFastHash := fun b => (ByteVec.ofBytes? 32 (b.drop 9)).getD (ByteVec.zero 32) }

def imageOf (i : Nat) : Hash :=
  ⟨UInt8.ofNat (i % 256) :: UInt8.ofNat (i / 256) :: List.replicate 30 0,by simp⟩

theorem imageOf_inj {i j : Nat} (hi : i < 65536) (hj : j < 65536) (h : imageOf i = imageOf j) :
    i = j := by
  have hbytes : (imageOf i).bytes = (imageOf j).bytes := by rw [h]
  obtain ⟨hlow,hrest⟩ := cons.inj hbytes
  have hhigh := (cons.inj hrest).1
  have h1 := congrArg UInt8.toNat hlow
  have h2 := congrArg UInt8.toNat hhigh
  simp only [UInt8.toNat_ofNat'] at h1 h2
  omega

def samplePoolTx (i : Nat) : Transaction :=
  ⟨⟨1,0,[.key 1000000 [0] (imageOf i)],[],[]⟩,[[ByteVec.zero 64]]⟩

theorem samplePoolTx_parsed (i : Nat) :
    Transaction.fromBytes (samplePoolBlob (imageOf i)) = .ok (samplePoolTx i) := by
  with_unfolding_all rfl

theorem samplePoolTx_hashed (i : Nat) : (samplePoolTx i).hash imageCrypto = .ok (imageOf i) := rfl

def imageParsed (i : Nat) : ParsedTx imageCrypto :=
  ⟨samplePoolBlob (imageOf i),samplePoolTx i,imageOf i,samplePoolTx_parsed i,samplePoolTx_hashed i⟩

@[irreducible] def imageNode : ChainState :=
  finalState (ChainState.openOrGenesis imageCrypto defaultConfig samplePoolZone 1000)

theorem imageNode_transactionInChain (i : Nat) :
    imageNode.poolChain.transactionInChain (imageOf i) = false := by
  have hopen : ChainState.openOrGenesis imageCrypto defaultConfig samplePoolZone 1000 =
      .ok ⟨⟩ imageNode := by
    have haccepted : (ChainState.genesisAccepted imageCrypto).isOk = true := by decide +kernel
    cases hacc : ChainState.genesisAccepted imageCrypto with
    | error e => rw [hacc] at haccepted; cases haccepted
    | ok r =>
      obtain ⟨g,_,hrun⟩ := openOrGenesis_of_accepted defaultConfig samplePoolZone 1000 hacc
      unfold imageNode
      rw [hrun]
      rfl
  obtain ⟨g,hg,hs⟩ := openOrGenesis_eq hopen
  have hgenesis : (genesisBlock.toOption.all fun block => decide (block.transactionHashes = [] ∧
      ∃ h ∈ (block.baseTransaction.hash imageCrypto).toOption, h.bytes.getD 2 0 = 14)) = true := by
    decide +kernel
  rw [hg.template] at hgenesis
  obtain ⟨hnone,h,hh,hbyte⟩ := of_decide_eq_true hgenesis
  rw [g.coinbaseHashed] at hh
  cases hh
  have hnot : imageOf i ∉ g.txHashes := by
    unfold MainBlock.txHashes
    rw [hnone]
    intro hmem
    rw [← mem_singleton.1 hmem] at hbyte
    cases hbyte
  rw [hs]
  simp only [ChainState.poolChain, ChainState.afterPush_transactionIndex, if_neg hnot]
  simp [ChainState.openEmpty, ChainState.openOps, defaultConfig, KeyValue.empty]

theorem ChainState.poolChain_checkpointTable (s : ChainState) :
    s.poolChain.checkpointTable = s.checkpoints := rfl

theorem imageNode_context : txContext imageNode.poolChain = ⟨0,10000,0,true,samplePoolZone⟩ := by
  have hkey : ContextKey.of imageNode.poolChain = ⟨0,10000,0⟩ := by decide +kernel
  have hpoints : imageNode.checkpoints = samplePoolZone := by decide +kernel
  have htable := imageNode.poolChain_checkpointTable.trans hpoints
  unfold txContext
  rw [hkey, htable]

theorem imageParsed_valid (i : Nat) :
    ∃ v, validateTransactionEarlyExit imageCrypto (samplePoolTx i) (samplePoolBlob (imageOf i)) .new
      imageNode.poolChain.toChainAccess (txContext imageNode.poolChain) =
        .ok (v,⟨[imageOf i]⟩) := by
  rw [imageNode_context]
  exact ⟨⟨1000000,false⟩,rfl⟩

def fillOps (n : Nat) : List PoolOp :=
  (List.range n).map fun i => .add (samplePoolBlob (imageOf i)) imageNode.poolChain .network

/-- The first `n` sample transactions are held and nothing else has happened. -/
structure Filled (pool : TransactionPool imageCrypto) (n : Nat) : Prop where
  cfg : pool.cfg = {}
  rejected : pool.rejected = .new
  recentlyDeleted : pool.recentlyDeleted = ∅
  described : ∃ rows, pool.Describes rows ∧
    rows.map (fun r => r.2.toParsedTx) = (List.range n).map imageParsed

theorem Filled.add {pool : TransactionPool imageCrypto} {n : Nat} (h : Filled pool n)
    (hn : n ≤ 10000) :
    Filled (pool.add (samplePoolBlob (imageOf n)) imageNode.poolChain .network).2 (n+1) := by
  obtain ⟨rows,hd,hrows⟩ := h.described
  have hrow : ∀ r ∈ rows, ∃ i < n, r.2.toParsedTx = imageParsed i := by
    intro r hr
    have hmem : r.2.toParsedTx ∈ rows.map fun r => r.2.toParsedTx := mem_map_of_mem hr
    rw [hrows] at hmem
    obtain ⟨i,hi,heq⟩ := mem_map.1 hmem
    exact ⟨i,mem_range.1 hi,heq.symm⟩
  have hapart : ∀ i < n, imageOf i ≠ imageOf n := by
    intro i hi heq
    have := imageOf_inj (by omega) (by omega) heq
    omega
  have hnew : pool.contains (imageParsed n).hash = false := by
    rw [Bool.eq_false_iff]
    intro hheld
    obtain ⟨r,hr,hhash⟩ := hd.contains_iff.1 hheld
    obtain ⟨i,hi,heq⟩ := hrow r hr
    rw [heq] at hhash
    exact hapart i hi hhash
  have hfree : ∀ k ∈ (imageParsed n).transaction.body.keyImages, pool.keyImages.lookup k = none := by
    intro k hk
    have hk' : k = imageOf n := mem_singleton.1 hk
    rw [Option.eq_none_iff_forall_ne_some]
    intro holder hholder
    obtain ⟨r,hr,hkr,_⟩ := (hd.keyImages _ _).1 hholder
    obtain ⟨i,hi,heq⟩ := hrow r hr
    unfold PoolEntry.images at hkr
    rw [heq] at hkr
    have hki : k = imageOf i := mem_singleton.1 hkr
    exact hapart i hi (hki.symm.trans hk')
  have hlength : ∀ i, (imageParsed i).blob.length = 107 := fun i => rfl
  have hsize : pool.sizeBytes = 107*n := by
    have hsizes : rows.map (fun r => r.2.size) =
        (rows.map fun r => r.2.toParsedTx).map fun p => p.blob.length := by
      rw [map_map]
      rfl
    rw [hd.sizeBytes, hsizes, hrows, map_map]
    simp [Function.comp_def, hlength, Nat.mul_comm]
  obtain ⟨v,hvalid⟩ := imageParsed_valid n
  have hroom : pool.sizeBytes + (imageParsed n).blob.length ≤ pool.cfg.maxSizeBytes := by
    rw [hsize, hlength, h.cfg]
    change 107*n + 107 ≤ 64*1024*1024
    omega
  have hdeleted : pool.recentlyDeleted.lookup (imageParsed n).hash = none := by
    rw [h.recentlyDeleted]
    rfl
  have hadd : (pool.add (samplePoolBlob (imageOf n)) imageNode.poolChain .network).2 =
      pool.insert (PoolEntry.validated (imageParsed n) .network pool.clock v) [imageOf n] := by
    unfold TransactionPool.add
    rw [ParsedTx.ofBytes_eq (samplePoolTx_parsed n) (samplePoolTx_hashed n)]
    have hchain : imageNode.poolChain.transactionInChain (imageParsed n).hash = false := by
      have hhash : (imageParsed n).hash = imageOf n := rfl
      rw [hhash]
      exact imageNode_transactionInChain n
    have hfee : (imageParsed n).transaction.transactionFee ≠ 0 := by
      simp [imageParsed, samplePoolTx, Transaction.transactionFee, keyInputSum, wrappingAdd,
        wrappingSub]
    exact addParsed_eq_insert hnew h.rejected hchain hdeleted hfee hfree hroom hvalid
  have hfree' : ∀ k ∈ (PoolEntry.validated (imageParsed n) .network pool.clock v).images,
      pool.keyImages.lookup k = none := hfree
  have hin : (pool.insert (PoolEntry.validated (imageParsed n) .network pool.clock v)
      [imageOf n]).Describes (rows ++ [⟨pool.nextSeq,.validated (imageParsed n) .network pool.clock v⟩]) :=
    hd.insert hnew hfree' (nodup_singleton _) fun _ => Iff.rfl
  rw [hadd]
  refine ⟨h.cfg,h.rejected,h.recentlyDeleted,_,hin,?_⟩
  rw [map_append, hrows, range_succ, map_append]
  rfl

theorem fill_filled {n : Nat} (hn : n ≤ 10001) :
    Filled (runPool (fillOps n) (new imageCrypto {})) n := by
  induction n with
  | zero => exact ⟨rfl,rfl,rfl,[],describes_new {},rfl⟩
  | succ n ih =>
    have hfill : runPool (fillOps (n+1)) (new imageCrypto {}) =
        ((runPool (fillOps n) (new imageCrypto {})).add (samplePoolBlob (imageOf n))
          imageNode.poolChain .network).2 := by
      unfold fillOps runPool
      rw [range_succ, map_append, foldl_append]
      rfl
    rw [hfill]
    exact (ih (by omega)).add (by omega)

/-- A pool within its budget, whose request for a peer's pool is an offence. -/
theorem requestMissingPoolTransactions_refused :
    ∃ ops : List PoolOp, ∃ offence,
      (runPool ops (new imageCrypto {})).sizeBytes ≤ PoolConfig.maxSizeBytes {} ∧
      takeRequestTxPool
        (runPool ops (new imageCrypto {})).requestMissingPoolTransactions =
          .error offence := by
  have hfilled := fill_filled (Nat.le_refl 10001)
  obtain ⟨rows,hd,hrows⟩ := hfilled.described
  have hlen : (runPool (fillOps 10001) (new imageCrypto {})).hashes.length = 10001 := by
    have hcount := congrArg List.length hrows
    rw [List.length_map, List.length_map, List.length_range] at hcount
    unfold hashes
    rw [List.length_map, hd.byPriority_eq, List.length_mergeSort, List.length_map, hcount]
  have hfits : (runPool (fillOps 10001) (new imageCrypto {})).sizeBytes ≤
      PoolConfig.maxSizeBytes {} :=
    (runPool_consistent (by decide) _ ⟨rfl,⟨[],describes_new {}⟩,Nat.zero_le _⟩).fits
  obtain ⟨offence,herror⟩ := (takeRequestTxPool_eq _).2 (by
    rw [hlen]
    decide)
  exact ⟨fillOps 10001,offence,hfits,herror⟩

end Wrkz
