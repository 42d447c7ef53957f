import Wrkz.Chain.Inverse
import Wrkz.Node.Peers

/-!
Lite blocks: what a node can still answer about a block it has announced, and what other
traffic does to a block that waits for its transactions.
-/

set_option autoImplicit false

namespace Wrkz

open Library BlockTemplate

/-- After a block that moved the main chain no transaction of the chain is in the pool. -/
theorem TransactionPool.Consistent.afterBlock_clear {cx : Crypto} {cfg : PoolConfig}
    {pool : TransactionPool cx} (hc : pool.Consistent cfg) (chain : PoolChain) (raw : RawBlock)
    (report : AddReport) : (pool.afterBlock chain raw report).ClearOf chain := by
  obtain ⟨rows,hd⟩ := hc.described
  unfold TransactionPool.afterBlock
  refine TransactionPool.ClearOf.clean ?_ _
  have hswept : (if pool.hashes = [] then pool else (pool.onBlockAdded chain
      (minedHashes cx raw.transactions) (spentKeyImages raw.transactions)).2).ClearOf chain := by
    by_cases hempty : pool.hashes = []
    · rw [if_pos hempty]
      intro h hh
      rw [← hd.mem_hashes, hempty] at hh
      cases hh
    · rw [if_neg hempty]
      exact hd.onBlockAdded_clear chain _ _
  generalize (if pool.hashes = [] then pool else _) = swept at hswept ⊢
  have hspent : (if report.outcome.status = .alternativeAndSwitched then
      (swept.removeSpentInChain chain).2 else swept).ClearOf chain := by
    split
    · exact hswept.removeSpentInChain
    · exact hswept
  split
  · exact hspent
  · exact hspent.copyTransactionsToPool _

namespace Node

variable {cx : Crypto} {n m : Node cx} {id : ConnId} {raw : RawBlock}

/-- The same chain and the same pool. -/
structure SameCore (n m : Node cx) : Prop where
  chain : m.chain = n.chain
  pool : m.pool = n.pool

namespace SameCore

theorem refl (n : Node cx) : SameCore n n := ⟨rfl,rfl⟩

theorem trans {l : Node cx} (h : SameCore n m) (h' : SameCore m l) : SameCore n l :=
  ⟨h'.chain.trans h.chain,h'.pool.trans h.pool⟩

theorem updateCtx (n : Node cx) (id : ConnId) (f : PeerCtx → PeerCtx) :
    SameCore n (n.updateCtx id f) := by
  unfold Node.updateCtx
  split <;> exact ⟨rfl,rfl⟩

theorem post (n : Node cx) (id : ConnId) (message : Message) : SameCore n (n.post id message) := by
  unfold Node.post
  split
  · exact refl n
  · split <;> exact ⟨rfl,rfl⟩

theorem relayToAll (n : Node cx) (message : Message) (exclude : Option ConnId) :
    SameCore n (n.relayToAll message exclude) :=
  List.foldlRecOn _ _ (refl n) fun _ h id _ => h.trans (post _ id message)

theorem relayBlock (n : Node cx) (nb : NewBlock) : SameCore n (n.relayBlock nb) :=
  List.foldlRecOn _ _ (refl n) fun _ h target _ => h.trans (post _ target.1 _)

theorem applyBlock (h : SameCore n m) (raw : RawBlock) :
    (m.applyBlock raw).1 = (n.applyBlock raw).1 ∧
      SameCore (n.applyBlock raw).2 (m.applyBlock raw).2 := by
  unfold Node.applyBlock
  rw [h.chain]
  cases ChainState.addBlockDetailed cx raw n.chain with
  | error e chain => exact ⟨rfl,rfl,h.pool⟩
  | ok report chain =>
    refine ⟨rfl,?_⟩
    dsimp only
    split
    · exact ⟨rfl,h.pool⟩
    · exact ⟨rfl,by dsimp only; rw [h.pool]⟩

end SameCore

variable {outcome : AddOutcome} {provided : List Bytes} {p : PendingLiteBlock}
  {relay : Node cx → Node cx} {pool : TransactionPool cx} {block : BlockTemplate} {h : Hash}
  {cfg : PoolConfig} {lb : LiteBlock}

theorem afterRelayed_moved (hmain : outcome.status ≠ .alternative) (height : Nat) (context : String)
    (hrelay : ∀ n, SameCore n (relay n)) :
    Ensures (afterRelayed id (.ok outcome) height context relay) n (fun _ m => SameCore n m)
      fun _ _ => False := by
  cases hstatus : outcome.status with
  | main =>
    simp only [afterRelayed, hstatus]
    exact Ensures.of_modify (hrelay n)
  | alternativeAndSwitched =>
    simp only [afterRelayed, hstatus]
    exact Ensures.of_modify ((hrelay n).trans (.post _ id _))
  | alternative => exact absurd hstatus hmain

theorem run_readOr_bind {α β : Type} {x : Option α} {a : α} (h : x = some a) {e : PeerError}
    {g : α → NodeM cx β} : (readOr x e >>= g) n = g a n := by
  subst h
  rfl

section

variable {lb : LiteBlock} {provided : List Bytes} {template : BlockTemplate} {blockHash : Hash}

def pendingBlock (n : Node cx) (id : ConnId) : Option PendingLiteBlock :=
  (n.ctx? id).bind PeerCtx.pendingLiteBlock

def unsatisfied (n : Node cx) (id : ConnId) (provided : List Bytes) : Bool :=
  (n.pendingBlock id).any fun p =>
    p.missedTransactions.any fun hash => ((providedByHash cx provided).lookup hash).isNone

variable (hparsed : fromBytes lb.blockTemplate = .ok template)
  (hhash : template.hash cx = .ok blockHash)
include hparsed hhash

theorem pushLiteBlock_unsatisfied (h : n.unsatisfied id provided = true) :
    pushLiteBlock id lb provided n =
      .error { reason := "peer did not supply a transaction it was asked for" }
        (clearPending id n) := by
  unfold pushLiteBlock
  rw [run_readOr_bind (a := template) (by rw [hparsed]; rfl),
    run_readOr_bind (a := blockHash) (by rw [hhash]; rfl), run_get_bind]
  change (if n.unsatisfied id provided = true then _ else _ : NodeM cx PUnit) n = _
  rw [if_pos h]
  rfl

theorem pushLiteBlock_incomplete (h : n.unsatisfied id provided = false)
    (hpending : (n.pendingBlock id).isSome = true)
    (hneed : (fillBlock (providedByHash cx provided) n.pool template.transactionHashes).2 ≠ []) :
    pushLiteBlock id lb provided n =
      .error { reason := "peer has a pending lite block but did not supply every transaction" }
        (clearPending id n) := by
  unfold pushLiteBlock
  rw [run_readOr_bind (a := template) (by rw [hparsed]; rfl),
    run_readOr_bind (a := blockHash) (by rw [hhash]; rfl), run_get_bind]
  change (if n.unsatisfied id provided = true then _ else _ : NodeM cx PUnit) n = _
  rw [if_neg (by simp [h])]
  change (if (fillBlock (providedByHash cx provided) n.pool template.transactionHashes).2 ≠ []
    then (if (n.pendingBlock id).isSome = true then _ else _) else _ : NodeM cx PUnit) n = _
  rw [if_pos hneed, if_pos hpending]
  rfl

theorem pushLiteBlock_complete (h : n.unsatisfied id provided = false) {blobs : List Bytes}
    (hfilled : fillBlock (providedByHash cx provided) n.pool template.transactionHashes =
      (blobs,[])) :
    pushLiteBlock id lb provided n =
      afterRelayed id ((clearPending id n).applyBlock ⟨lb.blockTemplate,blobs⟩).1
        lb.currentBlockchainHeight "lite block failed validation"
        (fun n => n.relayToAll (.newLiteBlock { lb with hop := (lb.hop + 1) % 2^32 }) (some id))
        ((clearPending id n).applyBlock ⟨lb.blockTemplate,blobs⟩).2 := by
  unfold pushLiteBlock
  rw [run_readOr_bind (a := template) (by rw [hparsed]; rfl),
    run_readOr_bind (a := blockHash) (by rw [hhash]; rfl), run_get_bind]
  change (if n.unsatisfied id provided = true then _ else _ : NodeM cx PUnit) n = _
  rw [if_neg (by simp [h])]
  change (if (fillBlock (providedByHash cx provided) n.pool template.transactionHashes).2 ≠ []
    then _ else _ : NodeM cx PUnit) n = _
  rw [if_neg (by simp [hfilled]), hfilled]
  rfl

end

/-- The node takes a block onto its main chain and announces it: a block of its own
miner, one relayed whole, or one completed from its lite form. -/
inductive Announces (raw : RawBlock) (n : Node cx) : Node cx → Prop
  | mined {update : ChainUpdate} {pool : TransactionPool cx} {chain : ChainState}
      (hadd : addBlockWithPool cx raw n.pool n.chain = (.ok update,pool,chain))
      (hmain : update.outcome.status ≠ .alternative) :
      Announces raw n (({ n with pool := pool, chain := chain } : Node cx).relayNewBlock raw)
  | relayed {id : ConnId} {nb : NewBlock} {outcome : AddOutcome} {m : Node cx}
      (hraw : nb.block = raw) (hnormal : (n.ctx? id).map PeerCtx.state = some .normal)
      (happlied : (n.applyBlock raw).1 = .ok outcome) (hmain : outcome.status ≠ .alternative)
      (hrun : handleNotifyNewBlock id (some nb) n = .ok ⟨⟩ m) : Announces raw n m
  | completed {id : ConnId} {lb : LiteBlock} {provided : List Bytes} {template : BlockTemplate}
      {outcome : AddOutcome} {m : Node cx} (hraw : lb.blockTemplate = raw.block)
      (hparsed : fromBytes lb.blockTemplate = .ok template)
      (hfilled : fillBlock (providedByHash cx provided) n.pool template.transactionHashes =
        (raw.transactions,[]))
      (happlied : (n.applyBlock raw).1 = .ok outcome) (hmain : outcome.status ≠ .alternative)
      (hrun : pushLiteBlock id lb provided n = .ok ⟨⟩ m) : Announces raw n m

theorem sameCore_noteHeight (n : Node cx) (id : ConnId) (height : Nat) : SameCore n
    (n.updateCtx id fun c => { c with remoteHeight := height }).recalculateObservedHeight :=
  (SameCore.updateCtx n id _).trans ⟨rfl,rfl⟩

theorem handleNotifyNewBlock_moved {nb : NewBlock}
    (hnormal : (n.ctx? id).map PeerCtx.state = some .normal)
    (happlied : (n.applyBlock nb.block).1 = .ok outcome) (hmain : outcome.status ≠ .alternative) :
    Ensures (handleNotifyNewBlock id (some nb)) n
      (fun _ m => SameCore (n.applyBlock nb.block).2 m) fun _ _ => False := by
  unfold handleNotifyNewBlock
  refine ensures_readOr (fun h => by cases h) fun a ha => ?_
  cases ha
  refine ensures_noteHeight (fun h => by rw [h] at hnormal; cases hnormal) fun c hc => ?_
  rw [hc] at hnormal
  have hstate : decide (c.state = .normal) = true := decide_eq_true (Option.some.inj hnormal)
  rw [hstate, if_neg (by simp)]
  obtain ⟨hsame,hcore⟩ :=
    (sameCore_noteHeight n id nb.currentBlockchainHeight).applyBlock nb.block
  refine Ensures.modifyGet_bind ?_
  rw [hsame, happlied]
  exact (afterRelayed_moved hmain _ _ fun n => .relayBlock n _).mono
    (fun _ _ h => hcore.trans h) fun _ _ h => h

theorem pushLiteBlock_moved {template : BlockTemplate} (hraw : lb.blockTemplate = raw.block)
    (hparsed : fromBytes lb.blockTemplate = .ok template)
    (hfilled : fillBlock (providedByHash cx provided) n.pool template.transactionHashes =
      (raw.transactions,[]))
    (happlied : (n.applyBlock raw).1 = .ok outcome) (hmain : outcome.status ≠ .alternative)
    (hrun : pushLiteBlock id lb provided n = .ok ⟨⟩ m) : SameCore (n.applyBlock raw).2 m := by
  cases hhash : template.hash cx with
  | error e =>
    unfold pushLiteBlock at hrun
    rw [run_readOr_bind (a := template) (by rw [hparsed]; rfl), hhash] at hrun
    cases hrun
  | ok blockHash =>
    cases hlacks : n.unsatisfied id provided with
    | true =>
      rw [pushLiteBlock_unsatisfied hparsed hhash hlacks] at hrun
      cases hrun
    | false =>
      rw [pushLiteBlock_complete hparsed hhash hlacks hfilled] at hrun
      have hraw' : (⟨lb.blockTemplate,raw.transactions⟩ : RawBlock) = raw := by rw [hraw]
      obtain ⟨hsame,hcore⟩ := (SameCore.updateCtx n id fun c =>
        { c with pendingLiteBlock := none }).applyBlock raw
      rw [hraw'] at hrun
      change afterRelayed id ((n.updateCtx id _).applyBlock raw).1 _ _ _ _ = _ at hrun
      rw [hsame, happlied] at hrun
      exact hcore.trans ((afterRelayed_moved hmain _ _ fun n => .relayToAll n _ _).of_ok_of_eq hrun)

theorem applyBlock_moved (hc : n.pool.Consistent cfg) (hparsed : fromBytes raw.block = .ok block)
    (happlied : (n.applyBlock raw).1 = .ok outcome) (hmain : outcome.status ≠ .alternative) :
    (n.applyBlock raw).2.pool.ClearOf (n.applyBlock raw).2.chain.poolChain ∧
      (n.applyBlock raw).2.chain.Indexes block := by
  unfold Node.applyBlock at happlied ⊢
  have hindexes := ChainState.addBlockDetailed_indexes cx hparsed n.chain
  cases hadd : ChainState.addBlockDetailed cx raw n.chain with
  | error e chain =>
    rw [hadd] at happlied
    cases happlied
  | ok report chain =>
    rw [hadd] at happlied
    cases happlied
    dsimp only
    rw [if_neg hmain]
    exact ⟨hc.afterBlock_clear _ raw report,hindexes.of_ok_of_eq hadd hmain⟩

theorem Announces.leaves (hc : n.pool.Consistent cfg) (hpercent : cfg.evictToPercent ≤ 100)
    (hparsed : fromBytes raw.block = .ok block) (h : Announces raw n m) :
    m.pool.ClearOf m.chain.poolChain ∧ m.chain.Indexes block := by
  cases h with
  | mined hadd hmain =>
    rename_i update pool chain
    have hrelay := SameCore.relayBlock ({ n with pool := pool, chain := chain } : Node cx)
      ⟨raw,Node.height { n with pool := pool, chain := chain },0⟩
    unfold relayNewBlock
    rw [hrelay.chain, hrelay.pool]
    unfold addBlockWithPool at hadd
    rw [hparsed] at hadd
    dsimp only at hadd
    have hindexes := ChainState.addBlockDetailed_indexes cx hparsed n.chain
    cases hrun : ChainState.addBlockDetailed cx raw n.chain with
    | error e chain =>
      rw [hrun] at hadd
      cases hadd
    | ok report chain' =>
      rw [hrun] at hadd
      dsimp only at hadd
      by_cases halt : report.outcome.status = .alternative
      · rw [if_pos halt] at hadd
        cases hadd
        exact absurd halt hmain
      · rw [if_neg halt] at hadd
        cases hadd
        exact ⟨hc.sweep_clear hpercent _ block raw report,hindexes.of_ok_of_eq hrun halt⟩
  | relayed hraw hnormal happlied hmain hrun =>
    subst hraw
    have hcore := (handleNotifyNewBlock_moved hnormal happlied hmain).of_ok_of_eq hrun
    rw [hcore.chain, hcore.pool]
    exact applyBlock_moved hc hparsed happlied hmain
  | completed hraw hparsed' hfilled happlied hmain hrun =>
    have hcore := pushLiteBlock_moved hraw hparsed' hfilled happlied hmain hrun
    rw [hcore.chain, hcore.pool]
    exact applyBlock_moved hc hparsed happlied hmain

theorem suppliedBlobs_error {asked : List Hash} (hmem : h ∈ asked)
    (hout : pool.contains h = false) : ∃ missing, suppliedBlobs pool asked = .error missing := by
  have hget : pool.get h = none := by
    rw [TransactionPool.contains, Option.isSome_eq_false_iff, Option.isNone_iff_eq_none] at hout
    rw [TransactionPool.get, hout]
    rfl
  induction asked with
  | nil => cases hmem
  | cons x rest ih =>
    unfold suppliedBlobs
    rcases List.mem_cons.1 hmem with rfl | hrest
    · rw [hget]
      exact ⟨h,rfl⟩
    · split
      · exact ⟨x,rfl⟩
      · obtain ⟨missing,hmissing⟩ := ih hrest
        rw [hmissing]
        exact ⟨missing,rfl⟩

def Supplies (n : Node cx) (id : ConnId) (request : MissingTxs) : Prop :=
  ∃ blobs, handleNotifyMissingTxs id (some request) n =
      .ok ⟨⟩ (n.post id (.newTransactions blobs)) ∧
    blobs.map (blobHash cx) = request.missingTxs.map some

theorem supplies_of_nil (n : Node cx) (id : ConnId) (height : Nat) (hash : Hash) :
    n.Supplies id ⟨height,hash,[]⟩ := ⟨[],rfl,rfl⟩

theorem not_supplies_of_missing {request : MissingTxs} (hmem : h ∈ request.missingTxs)
    (hout : n.pool.contains h = false) : ¬ n.Supplies id request := by
  rintro ⟨blobs,hrun,_⟩
  obtain ⟨missing,hmissing⟩ := suppliedBlobs_error hmem hout
  unfold handleNotifyMissingTxs at hrun
  rw [run_readOr_bind rfl, run_get_bind, hmissing] at hrun
  cases hrun

/-- A node that has taken a block onto its main chain and announced it can supply none of
its transactions: while the tip stands a request is answered exactly if it is empty. -/
theorem announced_block_supplied_iff (id : ConnId) {cfg : PoolConfig} (hpool : n.pool.Consistent cfg)
    (hpercent : cfg.evictToPercent ≤ 100) (hannounced : Announces raw n m) {block : BlockTemplate}
    (hparsed : fromBytes raw.block = .ok block) {ops : List PoolOp}
    (htip : ∀ op ∈ ops, ∀ chain, op.chain? = some chain →
      chain.transactionInChain = m.chain.poolChain.transactionInChain)
    {l : Node cx} (hlater : l.pool = runPool ops m.pool) (request : MissingTxs)
    (hsubset : request.missingTxs ⊆ block.transactionHashes) :
    l.Supplies id request ↔ request.missingTxs = [] := by
  obtain ⟨hclear,hindexes⟩ := hannounced.leaves hpool hpercent hparsed
  constructor
  · intro hsupplies
    by_contra hne
    obtain ⟨h,hmem⟩ := List.exists_mem_of_ne_nil _ hne
    have hchain : m.chain.poolChain.transactionInChain h = true := hindexes h (hsubset hmem)
    refine not_supplies_of_missing hmem ?_ hsupplies
    by_contra hheld
    rw [hlater] at hheld
    have hbefore := contains_runPool (fun op hop chain heq => by rw [htip op hop chain heq]; exact hchain)
      (Bool.eq_true_of_not_eq_false hheld)
    rw [hclear h hbefore] at hchain
    cases hchain
  · intro hnil
    obtain ⟨height,hash,asked⟩ := request
    cases hnil
    exact supplies_of_nil l id height hash

theorem Announces.of_mined {update : ChainUpdate}
    (hadd : (addBlockWithPool cx raw n.pool n.chain).1 = .ok update)
    (hmain : update.outcome.status ≠ .alternative) :
    Announces raw n (({ n with
      pool := (addBlockWithPool cx raw n.pool n.chain).2.1
      chain := (addBlockWithPool cx raw n.pool n.chain).2.2 } : Node cx).relayNewBlock raw) :=
  .mined (Prod.ext hadd rfl) hmain

/-- A node with one peer on relay duty and the transaction of its next block in the pool. -/
def sampleMiner : Node sampleCrypto :=
  (Node.new (sampleNode defaultConfig sampleZone 1000)
    (runPool [.add (sampleBlob (sampleSpend 10000 0 100 (mixHash [3])))
      (sampleNode defaultConfig sampleZone 1000).poolChain .network] (.new sampleCrypto {})) {}).setPeer 1
    { ctx := { PeerCtx.new true {} 0 with state := .normal, handshakeDone := true, version := 17 } }

def sampleAnnounced : Node sampleCrypto :=
  ({ sampleMiner with
    pool := (addBlockWithPool sampleCrypto sampleFirst sampleMiner.pool sampleMiner.chain).2.1
    chain := (addBlockWithPool sampleCrypto sampleFirst sampleMiner.pool sampleMiner.chain).2.2 } :
    Node sampleCrypto).relayNewBlock sampleFirst

def sampleAsked : MissingTxs :=
  ⟨2,mixHash [],[sampleTxId (sampleSpend 10000 0 100 (mixHash [3]))]⟩

theorem sampleAnnounced_announces : Announces sampleFirst sampleMiner sampleAnnounced := by
  have hmain : ((addBlockWithPool sampleCrypto sampleFirst sampleMiner.pool
      sampleMiner.chain).1.toOption.map fun u => u.outcome.status) = some .main := by decide +kernel
  cases hupdate : (addBlockWithPool sampleCrypto sampleFirst sampleMiner.pool
      sampleMiner.chain).1 with
  | error e =>
    rw [hupdate] at hmain
    cases hmain
  | ok update =>
    rw [hupdate] at hmain
    have hstatus : update.outcome.status = .main := Option.some.inj hmain
    exact .of_mined hupdate (by rw [hstatus]; decide)

/-- The miner held the transaction, announces its block and drops the peer that asks. -/
theorem announced_block_not_supplied :
    Announces sampleFirst sampleMiner sampleAnnounced ∧
    sampleMiner.pool.contains (sampleTxId (sampleSpend 10000 0 100 (mixHash [3]))) = true ∧
    (sampleAnnounced.sent.map fun s => s.1) = [1] ∧
    Ensures (handleNotifyMissingTxs 1 (some sampleAsked)) sampleAnnounced (fun _ _ => False)
      (fun e _ => e.reason = "cannot supply the requested transaction " ++
        Hex32.toHex (sampleTxId (sampleSpend 10000 0 100 (mixHash [3])))) := by
  refine ⟨sampleAnnounced_announces,?_,?_,?_⟩
  · decide +kernel
  · decide +kernel
  · have hmissing : suppliedBlobs sampleAnnounced.pool sampleAsked.missingTxs =
        .error (sampleTxId (sampleSpend 10000 0 100 (mixHash [3]))) := by decide +kernel
    unfold Ensures handleNotifyMissingTxs
    rw [run_readOr_bind rfl, run_get_bind, hmissing]
    rfl

theorem sampleMiner_pool : sampleMiner.pool.Consistent {} := by
  have hpool : sampleMiner.pool = runPool [.add (sampleBlob (sampleSpend 10000 0 100 (mixHash [3])))
      (sampleNode defaultConfig sampleZone 1000).poolChain .network] (.new sampleCrypto {}) := by
    rw [sampleMiner, setPeer_pool, new_pool]
  rw [hpool]
  exact runPool_consistent (by decide) _
    ⟨rfl,⟨[],TransactionPool.describes_new {}⟩,Nat.zero_le _⟩

theorem announced_block_supplied_iff_sample :
    ∃ block, fromBytes sampleFirst.block = .ok block ∧
      block.transactionHashes = sampleAsked.missingTxs ∧
      ¬ sampleAnnounced.Supplies 1 sampleAsked := by
  have hhashes : ((fromBytes sampleFirst.block).toOption.map
      transactionHashes) = some sampleAsked.missingTxs := by decide +kernel
  cases hparsed : fromBytes sampleFirst.block with
  | error e =>
    rw [hparsed] at hhashes
    cases hhashes
  | ok block =>
    rw [hparsed] at hhashes
    have hlist : block.transactionHashes = sampleAsked.missingTxs := Option.some.inj hhashes
    have hnone : ∀ op ∈ ([] : List PoolOp), ∀ chain, op.chain? = some chain →
        chain.transactionInChain = sampleAnnounced.chain.poolChain.transactionInChain := by simp
    have hiff := announced_block_supplied_iff 1 sampleMiner_pool (by decide)
      sampleAnnounced_announces hparsed hnone rfl sampleAsked (by rw [hlist]; exact List.Subset.refl _)
    exact ⟨block,rfl,hlist,fun h => by cases hiff.1 h⟩

theorem lookup_providedByHash :
    (∀ blob, (providedByHash cx provided).lookup h = some blob → blobHash cx blob = some h) ∧
      (((providedByHash cx provided).lookup h).isSome ↔ h ∈ minedHashes cx provided) := by
  unfold providedByHash
  -- from the back: the last blob of a hash stands
  induction provided using List.reverseRecOn with
  | nil => simp [minedHashes]
  | append_singleton provided blob ih =>
    rw [List.foldl_append, List.foldl_cons, List.foldl_nil]
    have hmined : minedHashes cx (provided ++ [blob]) =
        minedHashes cx provided ++ (blobHash cx blob).toList := by
      simp only [minedHashes, List.filterMap_append]
      cases hb : blobHash cx blob <;> simp [hb]
    cases hp : ParsedTx.ofBytes cx blob with
    | none =>
      have hb : blobHash cx blob = none := by rw [blobHash, hp]; rfl
      rw [hmined, hb]
      simpa using ih
    | some p =>
      have hb : blobHash cx blob = some p.hash := by rw [blobHash, hp]; rfl
      rw [hmined, hb]
      dsimp only
      by_cases heq : h = p.hash
      · subst heq
        rw [AList.lookup_insert]
        refine ⟨fun b hb' => ?_,by simp⟩
        cases hb'
        exact hb
      · rw [AList.lookup_insert_ne heq]
        simpa [heq] using ih

theorem fillBlock_complete_iff (provided : AList (fun _ : Hash => Bytes))
    (pool : TransactionPool cx) (hashes : List Hash) :
    (fillBlock provided pool hashes).2 = [] ↔
      ∀ h ∈ hashes, (provided.lookup h).isSome = true ∨ (pool.get h).isSome = true := by
  induction hashes with
  | nil => simp [fillBlock]
  | cons h hashes ih =>
    rw [List.forall_mem_cons, ← ih]
    conv_lhs => unfold fillBlock
    cases provided.lookup h with
    | some blob => simp
    | none =>
      cases pool.get h with
      | some e => simp
      | none => simp

theorem fillBlock_hashes {rows : List (TransactionPool.Row cx)} (hd : pool.Describes rows)
    {hashes : List Hash} (hcomplete : (fillBlock (providedByHash cx provided) pool hashes).2 = []) :
    (fillBlock (providedByHash cx provided) pool hashes).1.map (blobHash cx) = hashes.map some := by
  induction hashes with
  | nil => rfl
  | cons h hashes ih =>
    unfold fillBlock at hcomplete ⊢
    cases hlookup : (providedByHash cx provided).lookup h with
    | some blob =>
      rw [hlookup] at hcomplete
      simp only [List.map_cons]
      rw [ih hcomplete, lookup_providedByHash.1 blob hlookup]
    | none =>
      rw [hlookup] at hcomplete
      cases hget : pool.get h with
      | some e =>
        rw [hget] at hcomplete
        obtain ⟨r,_,rfl,hhash⟩ := hd.get_iff.1 hget
        have hblob : blobHash cx r.2.blob = some h := by
          rw [blobHash, ParsedTx.ofBytes_eq r.2.parsed r.2.hashed, ← hhash]
          rfl
        simp only [List.map_cons]
        rw [ih hcomplete, hblob]
      | none =>
        rw [hget] at hcomplete
        cases hcomplete

/-- Ordinary relay traffic. -/
inductive Relay : Frame → Prop
  | transactions (txs : List Bytes) : Relay (.newTransactions (some txs))
  | liteBlock (lb : LiteBlock) : Relay (.newLiteBlock (some lb))

def Answers (cx : Crypto) (p : PendingLiteBlock) : Frame → Prop
  | .newTransactions (some txs) => ∀ h ∈ p.missedTransactions, h ∈ minedHashes cx txs
  | _ => False

/-- The peer is on relay duty and the block waits for transactions it was asked for. -/
structure AwaitsTxs (n : Node cx) (id : ConnId) (p : PendingLiteBlock) : Prop where
  normal : (n.ctx? id).map PeerCtx.state = some .normal
  pending : n.pendingBlock id = some p
  missed : p.missedTransactions ≠ []

theorem AwaitsTxs.unsatisfied_iff (h : n.AwaitsTxs id p)
    (provided : List Bytes) : n.unsatisfied id provided = false ↔
      ∀ h ∈ p.missedTransactions, h ∈ minedHashes cx provided := by
  unfold unsatisfied
  rw [h.pending]
  simp only [Option.any_some, List.any_eq_false, Option.isNone_iff_eq_none]
  refine forall₂_congr fun x _ => ?_
  rw [← lookup_providedByHash.2, Option.isSome_iff_ne_none]

theorem pushLiteBlock_error
    (h : n.unsatisfied id provided = true) : ∃ e m, pushLiteBlock id lb provided n = .error e m := by
  cases hparsed : fromBytes lb.blockTemplate with
  | error e =>
    refine ⟨malformed "lite block template does not parse",n,?_⟩
    unfold pushLiteBlock
    rw [hparsed]
    rfl
  | ok template =>
    cases hhash : template.hash cx with
    | error e =>
      refine ⟨malformed "lite block does not hash",n,?_⟩
      unfold pushLiteBlock
      rw [run_readOr_bind (a := template) (by rw [hparsed]; rfl), hhash]
      rfl
    | ok blockHash => exact ⟨_,_,pushLiteBlock_unsatisfied hparsed hhash h⟩

theorem handleNotifyNewTransactions_pending (h : n.AwaitsTxs id p) (txs : List Bytes) :
    handler id (.newTransactions (some txs)) n = pushLiteBlock id p.request txs n := by
  change handleNotifyNewTransactions id (some txs) n = _
  unfold handleNotifyNewTransactions
  rw [run_readOr_bind rfl, run_get_bind, if_neg (by simp [h.normal])]
  have hpending : (n.ctx? id).bind PeerCtx.pendingLiteBlock = some p := h.pending
  rw [hpending]

/-- Whatever is not the answer is taken for a wrong one. -/
theorem AwaitsTxs.relay_error (h : n.AwaitsTxs id p) {frame : Frame} (hrelay : Relay frame)
    (hnot : ¬ Answers cx p frame) : ∃ e m, handler id frame n = .error e m := by
  cases hrelay with
  | transactions txs =>
    rw [handleNotifyNewTransactions_pending h]
    refine pushLiteBlock_error ?_
    by_contra hsat
    exact hnot ((h.unsatisfied_iff txs).1 (Bool.eq_false_iff.2 hsat))
  | liteBlock lb =>
    cases hctx : n.ctx? id with
    | none =>
      have hnormal := h.normal
      rw [hctx] at hnormal
      cases hnormal
    | some c =>
      let noted := (n.updateCtx id fun c =>
        { c with remoteHeight := lb.currentBlockchainHeight }).recalculateObservedHeight
      have hrun : handler id (.newLiteBlock (some lb)) n = pushLiteBlock id lb [] noted := by
        have hstate : c.state = .normal := by
          have hnormal := h.normal
          rw [hctx] at hnormal
          exact Option.some.inj hnormal
        change handleNotifyNewLiteBlock id (some lb) n = _
        unfold handleNotifyNewLiteBlock noteHeight peerCtx
        rw [run_readOr_bind rfl]
        simp [hctx, hstate, bind, EStateM.bind, get, MonadState.get, getThe, MonadStateOf.get,
          EStateM.get, pure, EStateM.pure, modify, modifyGet, MonadStateOf.modifyGet,
          EStateM.modifyGet, MonadState.modifyGet, noted]
      have hawaits : noted.AwaitsTxs id p := by
        have hbind := h.pending
        refine ⟨?_,?_,h.missed⟩
        · simpa [noted, hctx] using h.normal
        · simpa [noted, pendingBlock, hctx] using hbind
      rw [hrun]
      refine pushLiteBlock_error ?_
      by_contra hsat
      obtain ⟨x,hx⟩ := List.exists_mem_of_ne_nil _ h.missed
      have := (hawaits.unsatisfied_iff []).1 (Bool.eq_false_iff.2 hsat) x hx
      cases this

/-- The peer's messages one after the other, up to the first that is an error. -/
def relays (id : ConnId) : List Frame → Node cx → Except PeerError (Node cx)
  | [], n => .ok n
  | frame :: rest, n =>
    match handler id frame n with
    | .ok _ n => relays id rest n
    | .error e _ => .error e

theorem SameCore.requestChainIfPeerCanServe (n : Node cx) (id : ConnId) :
    SameCore n (n.requestChainIfPeerCanServe id) := by
  unfold Node.requestChainIfPeerCanServe
  cases n.ctx? id with
  | none => exact refl n
  | some c =>
    dsimp only
    split
    · exact updateCtx n id _
    · split
      · exact updateCtx n id _
      · split
        · exact (updateCtx n id _).trans ⟨rfl,rfl⟩
        · exact (updateCtx n id _).trans ((updateCtx _ id _).trans (post _ id _))

theorem afterRelayed_ok (height : Nat) (context : String) (hrelay : ∀ n, SameCore n (relay n)) :
    Ensures (afterRelayed id (.ok outcome) height context relay) n (fun _ m => SameCore n m)
      fun _ _ => False := by
  by_cases halt : outcome.status = .alternative
  · simp only [afterRelayed, halt]
    refine Ensures.of_modify ?_
    split
    · exact .requestChainIfPeerCanServe n id
    · exact .refl n
  · exact afterRelayed_moved halt height context hrelay

/-- A lite block that waits is applied when the answer comes, exactly if nothing else came
before it and the rest of its transactions are still in the pool. -/
theorem pending_block_applied_iff {rows : List (TransactionPool.Row cx)} {p : PendingLiteBlock}
    {template : BlockTemplate} {blockHash : Hash} (hpool : n.pool.Describes rows)
    (hawaits : n.AwaitsTxs id p)
    (hparsed : fromBytes p.request.blockTemplate = .ok template)
    (hhash : template.hash cx = .ok blockHash)
    (msgs : List Frame) (hmsgs : ∀ frame ∈ msgs, Relay frame ∧ ¬ Answers cx p frame)
    (answer : List Bytes) (hanswer : Answers cx p (.newTransactions (some answer)))
    (hvalid : ∀ txs,
      fillBlock (providedByHash cx answer) n.pool template.transactionHashes = (txs,[]) →
      ∃ outcome, (n.applyBlock ⟨p.request.blockTemplate,txs⟩).1 = .ok outcome) :
    (∃ n₁ n₂ txs, relays id msgs n = .ok n₁ ∧
      handler id (.newTransactions (some answer)) n₁ = .ok ⟨⟩ n₂ ∧
      txs.map (blobHash cx) = template.transactionHashes.map some ∧
      SameCore (n₁.applyBlock ⟨p.request.blockTemplate,txs⟩).2 n₂) ↔
    msgs = [] ∧ ∀ h ∈ template.transactionHashes,
      h ∈ minedHashes cx answer ∨ (n.pool.get h).isSome = true := by
  have hsat := (hawaits.unsatisfied_iff answer).2 hanswer
  have hfill : (fillBlock (providedByHash cx answer) n.pool template.transactionHashes).2 = [] ↔
      ∀ h ∈ template.transactionHashes,
        h ∈ minedHashes cx answer ∨ (n.pool.get h).isSome = true := by
    rw [fillBlock_complete_iff]
    exact forall₂_congr fun h _ => or_congr_left lookup_providedByHash.2
  rw [← hfill]
  constructor
  · rintro ⟨n₁,n₂,txs,hrelays,hrun,_⟩
    cases msgs with
    | cons frame rest =>
      obtain ⟨hrelay,hnot⟩ := hmsgs frame List.mem_cons_self
      obtain ⟨e,m,herror⟩ := hawaits.relay_error hrelay hnot
      rw [relays, herror] at hrelays
      cases hrelays
    | nil =>
      cases hrelays
      refine ⟨rfl,?_⟩
      by_contra hneed
      rw [handleNotifyNewTransactions_pending hawaits,
        pushLiteBlock_incomplete hparsed hhash hsat (by rw [hawaits.pending]; rfl) hneed] at hrun
      cases hrun
  · rintro ⟨rfl,hcomplete⟩
    let txs := (fillBlock (providedByHash cx answer) n.pool template.transactionHashes).1
    have hfilled : fillBlock (providedByHash cx answer) n.pool template.transactionHashes =
        (txs,[]) := Prod.ext rfl hcomplete
    have hnames : txs.map (blobHash cx) = template.transactionHashes.map some :=
      fillBlock_hashes hpool hcomplete
    obtain ⟨outcome,happlied⟩ := hvalid txs hfilled
    obtain ⟨hsame,hcore⟩ := (SameCore.updateCtx n id fun c =>
      { c with pendingLiteBlock := none }).applyBlock ⟨p.request.blockTemplate,txs⟩
    have hrun := pushLiteBlock_complete hparsed hhash hsat hfilled
    change _ = afterRelayed id ((n.updateCtx id _).applyBlock _).1 _ _ _ _ at hrun
    rw [hsame, happlied] at hrun
    obtain ⟨_,n₂,hok,hcore'⟩ := (afterRelayed_ok p.request.currentBlockchainHeight
      "lite block failed validation" fun n => SameCore.relayToAll n _ _).exists_ok
    refine ⟨n,n₂,txs,rfl,?_,hnames,hcore.trans hcore'⟩
    rw [handleNotifyNewTransactions_pending hawaits, hrun]
    exact hok

/-- A node with nothing in its pool that has been sent the lite form of the sample block. -/
def sampleReceiver : Node sampleCrypto :=
  (Node.new (sampleNode defaultConfig sampleZone 1000) (.new sampleCrypto {}) {}).setPeer 1
    { ctx := { PeerCtx.new true {} 0 with state := .normal, handshakeDone := true, version := 17 } }

def sampleWaiting : Node sampleCrypto :=
  finalState (handler 1 (.newLiteBlock (some ⟨2,0,sampleFirst.block⟩)) sampleReceiver)

def samplePending : PendingLiteBlock := ⟨⟨2,0,sampleFirst.block⟩,sampleAsked.missingTxs⟩

def sampleOther : Bytes := sampleBlob (sampleSpend 10000 0 100 (mixHash [4]))

theorem sampleWaiting_awaits : sampleWaiting.AwaitsTxs 1 samplePending :=
  ⟨by decide +kernel,by decide +kernel,by decide⟩

/-- The lite block has been asked about; a relayed transaction that has nothing to do
with it costs the peer its connection and the block its place. -/
theorem pending_block_dropped :
    sampleWaiting.AwaitsTxs 1 samplePending ∧
    (sampleWaiting.pool.add sampleOther sampleWaiting.chain.poolChain .network).1 = .added ∧
    Ensures (handler 1 (.newTransactions (some [sampleOther]))) sampleWaiting (fun _ _ => False)
      fun e m => e.reason = "peer did not supply a transaction it was asked for" ∧
        m.pendingBlock 1 = none ∧ m.chain.tip = some 0 := by
  refine ⟨sampleWaiting_awaits,?_,?_⟩
  · decide +kernel
  · decide +kernel

theorem sampleWaiting_pool : sampleWaiting.pool.Describes [] :=
  (TransactionPool.describes_new {}).congr
    (AList.ext (List.isEmpty_iff.1 (by decide +kernel))) (by decide +kernel)
    (AList.ext (by decide +kernel)) (AList.ext (by decide +kernel)) (AList.ext (by decide +kernel))
    (by decide +kernel) (by decide +kernel) (by decide +kernel)

/-- With nothing in between the answer completes the block. -/
theorem pending_block_applied_iff_sample :
    ∃ n₂ txs, handler 1 (.newTransactions (some sampleFirst.transactions)) sampleWaiting = .ok ⟨⟩ n₂ ∧
      txs.map (blobHash sampleCrypto) = sampleAsked.missingTxs.map some ∧
      SameCore (sampleWaiting.applyBlock ⟨samplePending.request.blockTemplate,txs⟩).2 n₂ := by
  have hhashes : ((fromBytes samplePending.request.blockTemplate).toOption.map
      transactionHashes) = some sampleAsked.missingTxs := by decide +kernel
  have hhashed : ((fromBytes samplePending.request.blockTemplate).toOption.any
      fun template => (template.hash sampleCrypto).isOk) = true := by decide +kernel
  cases hparsed : fromBytes samplePending.request.blockTemplate with
  | error e =>
    rw [hparsed] at hhashes
    cases hhashes
  | ok template =>
    rw [hparsed] at hhashes hhashed
    have hlist : template.transactionHashes = sampleAsked.missingTxs := Option.some.inj hhashes
    cases hhash : template.hash sampleCrypto with
    | error e =>
      rw [Except.toOption, Option.any_some, hhash] at hhashed
      cases hhashed
    | ok blockHash =>
      have hanswer : Answers sampleCrypto samplePending
          (.newTransactions (some sampleFirst.transactions)) := by
        change ∀ h ∈ sampleAsked.missingTxs, h ∈ minedHashes sampleCrypto sampleFirst.transactions
        decide +kernel
      have hfill : fillBlock (providedByHash sampleCrypto sampleFirst.transactions)
          sampleWaiting.pool sampleAsked.missingTxs = (sampleFirst.transactions,[]) := by
        decide +kernel
      have happlied : (sampleWaiting.applyBlock sampleFirst).1.isOk = true := by decide +kernel
      have hiff := pending_block_applied_iff sampleWaiting_pool sampleWaiting_awaits hparsed hhash []
        (by simp) sampleFirst.transactions hanswer (by
          intro txs htxs
          rw [hlist, hfill] at htxs
          cases htxs
          cases hrun : (sampleWaiting.applyBlock sampleFirst).1 with
          | error e =>
            rw [hrun] at happlied
            cases happlied
          | ok outcome => exact ⟨outcome,hrun⟩)
      have hall : ∀ h ∈ template.transactionHashes,
          h ∈ minedHashes sampleCrypto sampleFirst.transactions ∨
            (sampleWaiting.pool.get h).isSome = true := by
        intro h hh
        rw [hlist] at hh
        exact .inl (hanswer h hh)
      obtain ⟨n₁,n₂,txs,hrelays,hrun,hnames,hcore⟩ := hiff.2 ⟨rfl,hall⟩
      rw [relays] at hrelays
      have hsame : n₁ = sampleWaiting := (Except.ok.inj hrelays).symm
      rw [hsame] at hrun hcore
      rw [hlist] at hnames
      exact ⟨n₂,txs,hrun,hnames,hcore⟩

end Node

end Wrkz
