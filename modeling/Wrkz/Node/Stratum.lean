import Wrkz.Chain.MergeMining
import Wrkz.Mempool.Template

/-!
The stratum server's jobs. A daemon template leaves the merge-mining tag of its parent
block empty; sealing writes it, and from then on only the hash decides a share.
-/

set_option autoImplicit false

namespace Wrkz

open Library BlockTemplate

variable {cx : Crypto}

def Error.text : Error → String
  | .truncated => "input truncated"
  | .trailingBytes n => s!"{n} trailing bytes"
  | .badVarint => "bad varint"
  | .malformed what => s!"malformed: {what}"

/-- The parent block with a tag for `root` as the whole extra of its coinbase. -/
def ParentBlock.withTag (pb : ParentBlock) (root : Hash) : ParentBlock :=
  { pb with baseTransaction :=
    ⟨{ pb.baseTransaction.body with extra := appendMergeMiningTag [] ⟨0,root⟩ }⟩ }

def sealMergeMiningTag (cx : Crypto) (block : BlockTemplate) : Except String BlockTemplate :=
  if block.majorVersion < blockMajorVersion2 then .ok block
  else do
    let aux ← (block.auxiliaryHeaderHash cx).mapError
      (fun e => s!"Could not write the merge mining tag: {e.text}")
    let pb ← orRefuse block.parentBlock "Could not write the merge mining tag: no parent block"
    pure { block with parentBlock := some (pb.withTag aux) }

variable {b sealed : BlockTemplate}

theorem sealMergeMiningTag_eq {pb : ParentBlock}
    (hlow : blockMajorVersion2 ≤ b.majorVersion) (hpb : b.parentBlock = some pb)
    (h : sealMergeMiningTag cx b = .ok sealed) :
    ∃ aux, b.auxiliaryHeaderHash cx = .ok aux ∧
      sealed = { b with parentBlock := some (pb.withTag aux) } := by
  unfold sealMergeMiningTag at h
  rw [if_neg (Nat.not_lt.2 hlow)] at h
  cases haux : b.auxiliaryHeaderHash cx with
  | error e =>
    rw [haux] at h
    cases h
  | ok aux =>
    rw [haux, hpb] at h
    exact ⟨aux,rfl,(Except.ok.inj h).symm⟩

theorem ParentBlock.mergeMiningTag_withTag (pb : ParentBlock) (root : Hash) :
    (pb.withTag root).mergeMiningTag = some ⟨0,root⟩ := by
  have hlen := root.length_eq
  have hbytes : appendMergeMiningTag [] ⟨0,root⟩ = 0x03 :: 33 :: 0 :: root.bytes := by
    have hzero : Varint.encode 0 = [0] := rfl
    have hsize : Varint.encode 33 = [33] := rfl
    unfold appendMergeMiningTag
    simp only [hzero, List.length_append, List.length_cons, List.length_nil, hlen]
    rw [hsize]
    rfl
  have hread : Varint.read (33 :: 0 :: root.bytes) = .ok (33,0 :: root.bytes) := rfl
  have htake : (0 :: root.bytes).take 33 = 0 :: root.bytes :=
    List.take_of_length_le (by simp [hlen])
  have hdrop : (0 :: root.bytes).drop 33 = [] := List.drop_of_length_le (by simp [hlen])
  have hbody : parseMergeMiningBody (0 :: root.bytes) = some ⟨0,root⟩ := by
    have hdepth : Varint.read (0 :: root.bytes) = .ok (0,root.bytes) := rfl
    have hroot : ByteVec.ofBytes? 32 root.bytes = some root := by
      have hall : root.bytes.take 32 = root.bytes := List.take_of_length_le (by omega)
      simp [ByteVec.ofBytes?, hall, hlen]
    simp [parseMergeMiningBody, hdepth, hroot]
  change (parseExtra (appendMergeMiningTag [] ⟨0,root⟩)).mergeMiningTag = _
  unfold parseExtra
  rw [hbytes]
  simp only [List.length_cons]
  unfold parseExtraLoop
  simp [hread, hlen, htake, hdrop, hbody, parseExtraLoop]

theorem genesisBlockHash_ok (cx : Crypto) : ∃ h, genesisBlockHash cx = .ok h := by
  have hbytes : (genesisBlock >>= fun g => g.baseTransaction.toBytes).isOk = true := by
    decide +kernel
  cases hg : genesisBlock with
  | error e =>
    rw [hg] at hbytes
    cases hbytes
  | ok g =>
    rw [hg] at hbytes
    obtain ⟨hversion,_⟩ := genesis_facts hg
    cases hcoinbase : g.baseTransaction.toBytes with
    | error e =>
      change g.baseTransaction.toBytes.isOk = true at hbytes
      rw [hcoinbase] at hbytes
      cases hbytes
    | ok data =>
      unfold genesisBlockHash
      rw [hg]
      simp [bind, Except.bind, BlockTemplate.hash, BlockTemplate.headerHashingBlob,
        BlockTemplate.allTransactionHashes, Transaction.hash, hcoinbase, hversion,
        blockMajorVersion1, blockMajorVersion2, pure, Except.pure]

namespace BlockTemplate

def minedWith (b : BlockTemplate) (nonce timestamp : Nat) : BlockTemplate :=
  { b with nonce := nonce, timestamp := timestamp }

/-- From version 2 on the header covers neither the nonce, nor the time, nor the parent. -/
theorem headerHashingBlob_congr {b c : BlockTemplate} (hv : b.majorVersion ≠ blockMajorVersion1)
    (hmajor : c.majorVersion = b.majorVersion) (hminor : c.minorVersion = b.minorVersion)
    (hprevious : c.previousBlockHash = b.previousBlockHash)
    (hcoinbase : c.baseTransaction = b.baseTransaction)
    (hhashes : c.transactionHashes = b.transactionHashes) :
    c.headerHashingBlob cx = b.headerHashingBlob cx := by
  unfold headerHashingBlob allTransactionHashes
  rw [writeHeader_eq hv, writeHeader_eq (hmajor ▸ hv), hmajor, hminor, hprevious, hcoinbase,
    hhashes]

variable {b : BlockTemplate} (hv : b.majorVersion ≠ blockMajorVersion1)
include hv

variable {pb : ParentBlock}

theorem checkProofOfWork_of_root {aux : Hash} (hpb : b.parentBlock = some pb)
    (htag : pb.mergeMiningTag = some ⟨0,aux⟩) (hbranch : pb.blockchainBranch = [])
    (haux : b.auxiliaryHeaderHash cx = .ok aux) (d : Nat) :
    b.checkProofOfWork cx d = (b.powHash cx).map fun h => checkHash h d := by
  obtain ⟨genesis,hgenesis⟩ := genesisBlockHash_ok cx
  unfold checkProofOfWork
  cases b.powHash cx with
  | error e => rfl
  | ok h =>
    cases hcheck : checkHash h d <;>
      simp [bind, Except.bind, Except.map, checkProofOfWorkWith, hcheck, hv, hpb, orRefuse, htag,
        hbranch, haux, hgenesis, treeHashFromBranchWithPath, treeHashFromBranchLoop, pure,
        Except.pure]

/-- The parent header serializes once its branch has the length its count asks for. -/
theorem powHash_ok (hknown : versionKnown b.majorVersion)
    (hpb : b.parentBlock = some pb) (hcount : 1 ≤ pb.transactionCount)
    (hlen : pb.baseTransactionBranch.length = treeDepth pb.transactionCount) :
    ∃ h, b.powHash cx = .ok h := by
  have hcount' : ¬ pb.transactionCount < 1 := by omega
  unfold powHash powInput parentHashingBlob ParentBlock.write ParentBlock.checkShape
  simp [hv, hpb, orRefuse, refuseIf, hcount', hlen, hknown, bind, Except.bind, pure, Except.pure]

end BlockTemplate

/-- Sealing leaves the header hashing blob alone, and the sealed template, with any nonce
and time written into it, passes the proof-of-work check exactly when its hash does. -/
theorem sealed_decided_by_hash {b sealed : BlockTemplate} {pb : ParentBlock}
    (hlow : blockMajorVersion2 ≤ b.majorVersion) (hhigh : b.majorVersion ≤ maxBlockMajorVersion)
    (hpb : b.parentBlock = some pb) (hbranch : pb.blockchainBranch = [])
    (hlen : pb.baseTransactionBranch.length = treeDepth pb.transactionCount)
    (hseal : sealMergeMiningTag cx b = .ok sealed) :
    sealed.headerHashingBlob cx = b.headerHashingBlob cx ∧
      ∀ nonce timestamp d,
        ((sealed.minedWith nonce timestamp).checkProofOfWork cx d = .ok true ↔
          ∃ h, (sealed.minedWith nonce timestamp).powHash cx = .ok h ∧ checkHash h d = true) ∧
        (1 ≤ pb.transactionCount →
          ∃ h, (sealed.minedWith nonce timestamp).powHash cx = .ok h) := by
  obtain ⟨aux,haux,rfl⟩ := sealMergeMiningTag_eq hlow hpb hseal
  have hv : b.majorVersion ≠ blockMajorVersion1 := by
    simp only [blockMajorVersion1, blockMajorVersion2] at hlow ⊢
    omega
  have hknown : versionKnown b.majorVersion := by
    refine ⟨?_,hhigh⟩
    simp only [blockMajorVersion2] at hlow
    omega
  refine ⟨headerHashingBlob_congr hv rfl rfl rfl rfl rfl,fun nonce timestamp d => ?_⟩
  generalize hw : ({ b with parentBlock := some (pb.withTag aux) } : BlockTemplate).minedWith
    nonce timestamp = w
  have hwv : w.majorVersion = b.majorVersion := by rw [← hw]; rfl
  have hwpb : w.parentBlock = some (pb.withTag aux) := by rw [← hw]; rfl
  have hwaux : w.auxiliaryHeaderHash cx = .ok aux := by
    unfold auxiliaryHeaderHash at haux ⊢
    have hsame : w.headerHashingBlob cx = b.headerHashingBlob cx := by
      rw [← hw]
      exact headerHashingBlob_congr hv rfl rfl rfl rfl rfl
    rw [hsame, haux]
  have hdecided := checkProofOfWork_of_root (hwv ▸ hv) hwpb
    (pb.mergeMiningTag_withTag aux) hbranch hwaux d
  refine ⟨?_,fun hcount => powHash_ok (hwv ▸ hv) (hwv ▸ hknown) hwpb hcount hlen⟩
  rw [hdecided]
  cases w.powHash cx with
  | error e => simp [Except.map]
  | ok h => simp [Except.map]

def sampleUnsealed : BlockTemplate :=
  { sampleMerged with parentBlock := some (sampleParent (ByteVec.zero 32)) }

theorem sealed_decided_by_hash_sample :
    ∃ sealed, sealMergeMiningTag sampleCrypto sampleUnsealed = .ok sealed ∧
      sealed.headerHashingBlob sampleCrypto = sampleUnsealed.headerHashingBlob sampleCrypto ∧
      ∃ h, (sealed.minedWith 5 60).powHash sampleCrypto = .ok h := by
  have hok : (sealMergeMiningTag sampleCrypto sampleUnsealed).isOk = true := by decide +kernel
  cases hseal : sealMergeMiningTag sampleCrypto sampleUnsealed with
  | error e =>
    rw [hseal] at hok
    cases hok
  | ok sealed =>
    have hparent : sampleUnsealed.parentBlock = some (sampleParent (ByteVec.zero 32)) := rfl
    obtain ⟨hheader,hmined⟩ := sealed_decided_by_hash (by decide) (by decide) hparent rfl rfl hseal
    exact ⟨sealed,rfl,hheader,(hmined 5 60 1).2 (by decide)⟩

structure BlockTemplateAnswer where
  blob : Bytes
  difficulty : Nat
  height : Nat
  txPublicKey : Hash
  deriving DecidableEq, Repr

/-- The node behind the server at one moment: its chain and pool, the context it keeps for
templates, and the clock and keys the next template takes. -/
structure NodeView (cx : Crypto) where
  chain : ChainState
  inRange : chain.templateChain.InRange
  pool : TransactionPool cx
  held : Option HeldContext
  env : TemplateEnv
  options : TemplateOptions
  now_lt : env.now options < 2 ^ 64
  ready : Bool

namespace NodeView

variable (v : NodeView cx)

def topIndex : Nat := v.chain.templateChain.topIndex

def tipHash : Hash := v.chain.templateChain.topBlockHash

def blockTemplate (address reserve : Bytes) :
    Except TemplateError BlockTemplateAnswer × NodeView cx :=
  let (result,pool,held) := buildTemplateCached v.env v.chain.templateChain v.inRange v.pool v.held
    address 0 (some reserve) v.options
  (result.map fun t => ⟨t.blob,t.difficulty,t.height,t.txPublicKey⟩,{ v with pool, held })

variable {v}

theorem blockTemplate_onTip {address reserve : Bytes} {answer : BlockTemplateAnswer}
    (h : (v.blockTemplate address reserve).1 = .ok answer) : answer.height = v.topIndex + 1 ∧
      ∀ block, fromBytes answer.blob = .ok block → block.previousBlockHash = v.tipHash := by
  unfold blockTemplate at h
  split at h
  rename_i result _ _ hbuilt
  cases result with
  | error e => cases h
  | ok t =>
    cases h
    exact buildTemplateCached_onTip v.now_lt (congrArg Prod.fst hbuilt)

end NodeView

structure Job where
  id : Nat
  /-- The block, merge-mining tag already written. -/
  block : BlockTemplate
  difficulty : Nat
  height : Nat
  blob : Bytes
  seenNonces : List Nat
  deriving DecidableEq, Repr

structure ClientState where
  sessionId : Nat
  address : Bytes
  agent : String
  loggedIn : Bool
  /-- Newest last. -/
  jobs : List Job
  acceptedShares : Nat
  foundBlocks : Nat
  deriving DecidableEq, Repr

def ClientState.default : ClientState := ⟨0,[],"",false,[],0,0⟩

def jobHistory : Nat := 4

def ClientState.pushJob (st : ClientState) (job : Job) : ClientState :=
  { st with jobs := (st.jobs ++ [job]).drop ((st.jobs ++ [job]).length - jobHistory) }

theorem ClientState.getLast?_pushJob (st : ClientState) (job : Job) :
    (st.pushJob job).jobs.getLast? = some job := by
  have hkept : ¬ (st.jobs ++ [job]).length ≤ (st.jobs ++ [job]).length - jobHistory := by
    simp only [List.length_append, List.length_singleton, jobHistory]
    omega
  simp only [pushJob, List.getLast?_drop, if_neg hkept, List.getLast?_concat]

theorem ClientState.mem_pushJob {st : ClientState} {job j : Job}
    (h : j ∈ (st.pushJob job).jobs) : j ∈ st.jobs ∨ j = job := by
  simpa [pushJob] using List.mem_of_mem_drop h

/-- `algorithm_name`. -/
def algorithmName (majorVersion : Nat) : String :=
  if majorVersion = 4 then "cn-lite/1"
  else if majorVersion = 5 then "cn-pico/trtl"
  else if majorVersion = 6 then "argon2/chukwa"
  else if majorVersion = 7 then "cn/upx2"
  else "cn/0"

/-- The number `encode_target` writes as eight bytes. -/
def encodeTarget (difficulty : Nat) : Nat :=
  if difficulty ≤ 1 then 2^64 - 1 else (2^64 - 1) / difficulty

/-- The `job` object. -/
structure JobMessage where
  blob : Bytes
  jobId : Nat
  target : Nat
  height : Nat
  algo : String
  deriving DecidableEq, Repr

def describeJob (job : Job) (shareDifficulty : Nat) : JobMessage :=
  ⟨job.blob,job.id,encodeTarget (if shareDifficulty = 0 then job.difficulty else shareDifficulty),
    job.height,algorithmName job.block.majorVersion⟩

def sealedWork (cx : Crypto) (answer : BlockTemplateAnswer) :
    Except String (BlockTemplate × Bytes) := do
  refuseIf (answer.difficulty = 0) "The chain reported a zero difficulty"
  let block ← (fromBytes answer.blob).mapError
    (fun e => s!"Could not read the block template: {e.text}")
  let block ← sealMergeMiningTag cx block
  let blob ← (block.powInput cx).mapError
    (fun e => s!"Could not build the hashing blob: {e.text}")
  pure (block,blob)

inductive StratumError where
  | text (message : String)
  /-- "Could not create a block template: " and the text of `e`. -/
  | template (e : TemplateError)
  deriving DecidableEq, Repr

inductive StratumReply where
  | error (e : StratumError)
  | ok
  | job (message : JobMessage)
  deriving DecidableEq, Repr

def StratumReply.isJob : StratumReply → Bool
  | .job _ => true
  | _ => false

/-- `refresh_job` up to the push. The extra nonce and the job's id come from one counter,
whose new value is returned, with the node as the template leaves it. -/
def buildJob (cx : Crypto) (view : NodeView cx) (ids : Nat) (address : Bytes) :
    Except StratumError Job × Nat × NodeView cx :=
  match view.blockTemplate address (littleEndian (ids+1) 8) with
  | (.error e,view) => (.error (.template e),ids+1,view)
  | (.ok answer,view) =>
    match sealedWork cx answer with
    | .error e => (.error (.text e),ids+1,view)
    | .ok work => (.ok ⟨ids+2,work.1,answer.difficulty,answer.height,work.2,[]⟩,ids+2,view)

structure Job.BuiltOn (job : Job) (view : NodeView cx) : Prop where
  height : job.height = view.topIndex + 1
  previous : job.block.previousBlockHash = view.tipHash

theorem sealMergeMiningTag_previous
    (h : sealMergeMiningTag cx b = .ok sealed) :
    sealed.previousBlockHash = b.previousBlockHash := by
  unfold sealMergeMiningTag at h
  split at h
  · cases h
    rfl
  · simp only [bind_ok_iff] at h
    obtain ⟨_,_,_,_,heq⟩ := h
    cases heq
    rfl

theorem buildJob_builtOn {view view' : NodeView cx} {ids ids' : Nat} {address : Bytes} {job : Job}
    (h : buildJob cx view ids address = (.ok job,ids',view')) : job.BuiltOn view := by
  unfold buildJob at h
  split at h
  · cases h
  · rename_i answer _ hanswer
    obtain ⟨hheight,hprevious⟩ := NodeView.blockTemplate_onTip (congrArg Prod.fst hanswer)
    split at h
    · cases h
    · rename_i work hwork
      unfold sealedWork at hwork
      simp only [bind_ok_iff, mapError_ok_iff] at hwork
      obtain ⟨_,_,block,hblock,sealed,hsealed,blob,_,heq⟩ := hwork
      cases heq
      cases h
      exact ⟨hheight,(sealMergeMiningTag_previous hsealed).trans (hprevious block hblock)⟩

end Wrkz
