import Wrkz.Primitives.TreeHash

/-!
What a proof of work commits to. The work is over the header of the parent block;
through its Merkle branch, the parent coinbase and the merge-mining tag it reaches
one header hashing blob of ours, and through the tree of transaction hashes one block.
-/

set_option autoImplicit false

namespace Wrkz

open Library Writer List

structure ParentBlock.Parsed (pb : ParentBlock) : Prop where
  majorVersion : pb.majorVersion < 2 ^ 8
  minorVersion : pb.minorVersion < 2 ^ 8
  transactionCount : pb.transactionCount < 2 ^ 16
  baseTransactionBranch : pb.baseTransactionBranch.length = treeDepth pb.transactionCount
  baseTransaction : pb.baseTransaction.body.Encodable
  blockchainBranch : pb.mergeMiningTag.map MergeMiningTag.depth = some pb.blockchainBranch.length

structure BlockTemplate.Parsed (b : BlockTemplate) : Prop where
  wellFormed : b.WellFormed
  minorVersion : b.minorVersion < 2 ^ 8
  parentBlock : b.majorVersion ≠ blockMajorVersion1 → ∃ pb, b.parentBlock = some pb ∧ pb.Parsed
  baseTransaction : b.baseTransaction.Parsed
  transactionCount : b.transactionHashes.length < 2 ^ 64

section

variable {b : BlockTemplate} (h : b.Parsed)
include h

theorem BlockTemplate.Parsed.major_lt : b.majorVersion < 2 ^ 64 :=
  lt_of_le_of_lt h.wellFormed.majorVersion.2 (by decide)

theorem BlockTemplate.Parsed.minor_lt : b.minorVersion < 2 ^ 64 :=
  lt_trans h.minorVersion (by norm_num)

theorem BlockTemplate.Parsed.count_lt : b.transactionHashes.length+1 < 128 ^ 11 :=
  lt_of_le_of_lt (Nat.succ_le_of_lt h.transactionCount) (by norm_num)

end

theorem BaseTransaction.yields_read : Yields BaseTransaction.read (·.body.Encodable) := by
  refine TransactionPrefix.yields_readAnyVersion_encodable.bind fun body hbody => ?_
  refine Yields.ite (fun _ => ?_) fun _ => Yields.pure hbody
  exact Yields.any.bind fun _ _ => Yields.pure hbody

theorem ParentBlock.yields_read_parsed : Yields ParentBlock.read (·.1.Parsed) := by
  refine (Reader.yields_varintBits 8).bind fun major hmajor => ?_
  refine (Reader.yields_varintBits 8).bind fun minor hminor => ?_
  refine Yields.any.bind fun timestamp _ => Yields.any.bind fun prev _ => ?_
  refine Yields.any.bind fun nonce _ => (Reader.yields_varintBits 16).bind fun txNum htxNum => ?_
  refine Yields.ite (fun _ => Yields.fail) fun _ => ?_
  refine (Reader.yields_repeatN_length _ (treeDepth txNum)).bind fun branch hbranch => ?_
  refine BaseTransaction.yields_read.bind fun base hbase => ?_
  split
  · exact Yields.fail
  · rename_i tag htag
    refine Yields.ite (fun _ => Yields.fail) fun _ => ?_
    refine (Reader.yields_repeatN_length _ tag.depth).bind fun chain hchain => Yields.pure ?_
    refine ⟨hmajor,hminor,htxNum,hbranch,hbase,?_⟩
    simp only [mergeMiningTag, htag, Option.map_some, hchain]

theorem BlockTemplate.fromBytes_parsed {data : Bytes} {b : BlockTemplate}
    (h : BlockTemplate.fromBytes data = .ok b) : b.Parsed := by
  have hyields : Yields BlockTemplate.read fun b => b.minorVersion < 2 ^ 8 ∧
      (b.majorVersion ≠ blockMajorVersion1 → ∃ pb, b.parentBlock = some pb ∧ pb.Parsed) ∧
      b.baseTransaction.Parsed ∧ b.transactionHashes.length < 2 ^ 64 := by
    refine Yields.any.bind fun major _ => ?_
    refine Yields.ite (fun _ => Yields.fail) fun _ => ?_
    refine (Reader.yields_varintBits 8).bind fun minor hminor => ?_
    refine Yields.bind (P := fun x => major ≠ blockMajorVersion1 →
      ∃ pb, x.2.2.2 = some pb ∧ pb.Parsed) ?_ fun header hheader => ?_
    · refine Yields.ite (fun hone => ?_) fun _ => ?_
      · refine Yields.any.bind fun ts _ => Yields.any.bind fun prev _ => ?_
        exact Yields.any.bind fun nonce _ => Yields.pure fun hne => absurd hone hne
      · refine Yields.any.bind fun prev _ => ParentBlock.yields_read_parsed.bind fun x hx => ?_
        exact Yields.pure fun _ => ⟨x.1,rfl,hx⟩
    · refine Transaction.yields_read_parsed.bind fun base hbase => ?_
      refine (Reader.yields_count 32).bind fun n hn => ?_
      refine (Reader.yields_repeatN_length _ n).bind fun hashes hhashes => Yields.pure ?_
      exact ⟨hminor,hheader,hbase,by rw [hhashes]; exact hn⟩
  obtain ⟨rest,hrun⟩ := Reader.finish_ok h
  obtain ⟨hminor,hparent,hbase,hcount⟩ := hyields data b rest hrun
  exact ⟨fromBytes_wellFormed h,hminor,hparent,hbase,hcount⟩

def BaseTransaction.hashInputs (cx : Crypto) (t : BaseTransaction) : List Bytes :=
  t.body.write ::
    if t.body.version < 2 then []
    else [[0],(cx.cnFastHash t.body.write).bytes ++ (cx.cnFastHash [0]).bytes ++
      (ByteVec.zero 32).bytes]

/-- The strings that Keccak is applied to when the proof of work of a block with a
parent block is checked: the parent coinbase and its branch, the coinbase and the tree
of transactions, the header, and the branch up to the merge-mining root. -/
def BlockTemplate.keccakInputs (cx : Crypto) (b : BlockTemplate) : Except Error (List Bytes) := do
  let pb ← orRefuse b.parentBlock (.malformed "parent block missing")
  let coinbase ← b.baseTransaction.toBytes
  let hashes ← b.allTransactionHashes cx
  let blob ← b.headerHashingBlob cx
  let genesis ← genesisBlockHash cx
  pure (pb.baseTransaction.hashInputs cx ++
    branchInputs cx pb.baseTransactionBranch (pb.baseTransaction.hash cx) none ++
    coinbase :: treeInputs cx hashes ++
    bytes blob ::
      branchInputs cx pb.blockchainBranch (hashAsObject cx blob) (some genesis))

variable {cx : Crypto}

theorem BaseTransaction.hash_inj {s t : BaseTransaction} (hs : s.body.Encodable)
    (ht : t.body.Encodable) (hform : s.body.version < 2 ↔ t.body.version < 2)
    (hfree : NoCollision cx (s.hashInputs cx) (t.hashInputs cx)) (h : s.hash cx = t.hash cx) :
    s = t := by
  have hwrite (heq : cx.cnFastHash s.body.write = cx.cnFastHash t.body.write) : s = t := by
    have hbytes := hfree _ mem_cons_self _ mem_cons_self heq
    have hbody := TransactionPrefix.write_delimited.inj hs ht hbytes
    cases s
    cases t
    simp_all
  unfold hash at h
  unfold hashInputs at hfree
  by_cases hold : s.body.version < 2
  · rw [if_pos hold, if_pos (hform.1 hold)] at h
    exact hwrite h
  · have hold' : ¬ t.body.version < 2 := fun hlt => hold (hform.2 hlt)
    rw [if_neg hold, if_neg hold'] at h
    rw [if_neg hold, if_neg hold'] at hfree
    have houter := hfree _ (by simp) _ (by simp) h
    rw [append_assoc, append_assoc] at houter
    obtain ⟨hinner,_⟩ := append_inj houter (by rw [ByteVec.length_eq, ByteVec.length_eq])
    exact hwrite (ByteVec.ext hinner)

namespace BlockTemplate

variable {b : BlockTemplate} {pb : ParentBlock} {blob : Bytes} {hashes : List Hash}

theorem headerHashingBlob_eq (h : b.headerHashingBlob cx = .ok blob) :
    ∃ hashes, b.allTransactionHashes cx = .ok hashes ∧
      blob = b.writeHeader ++ (treeHash cx hashes).bytes ++
        varint (b.transactionHashes.length+1) := by
  unfold headerHashingBlob at h
  simp only [bind_ok_iff] at h
  obtain ⟨hashes,hhashes,heq⟩ := h
  exact ⟨hashes,hhashes,(Except.ok.inj heq).symm⟩

theorem allTransactionHashes_eq (h : b.allTransactionHashes cx = .ok hashes) :
    ∃ data, b.baseTransaction.toBytes = .ok data ∧
      hashes = cx.cnFastHash data :: b.transactionHashes := by
  unfold allTransactionHashes Transaction.hash at h
  simp only [bind_ok_iff] at h
  obtain ⟨coinbase,⟨data,hdata,hhash⟩,heq⟩ := h
  cases hhash
  exact ⟨data,hdata,(Except.ok.inj heq).symm⟩

theorem writeHeader_eq (hv : b.majorVersion ≠ blockMajorVersion1) :
    b.writeHeader = varint b.majorVersion ++ (varint b.minorVersion ++
      b.previousBlockHash.bytes) := by
  unfold writeHeader
  rw [if_neg hv, append_assoc]

theorem headerHashingBlob_length (hv : b.majorVersion ≠ blockMajorVersion1)
    (h : b.headerHashingBlob cx = .ok blob) : blob.length < 2 ^ 64 := by
  obtain ⟨hashes,_,rfl⟩ := headerHashingBlob_eq h
  have hmajor := Varint.writeLoop_length_le 10 b.majorVersion
  have hminor := Varint.writeLoop_length_le 10 b.minorVersion
  have hcount := Varint.writeLoop_length_le 10 (b.transactionHashes.length+1)
  rw [writeHeader_eq hv]
  simp only [length_append, ByteVec.length_eq, varint, Varint.encode]
  omega

theorem headerHashingBlob_inj {b b' : BlockTemplate} {hashes hashes' : List Hash}
    {data data' : Bytes} (hb : b.Parsed) (hb' : b'.Parsed)
    (hv : b.majorVersion ≠ blockMajorVersion1) (hv' : b'.majorVersion ≠ blockMajorVersion1)
    (h : b.headerHashingBlob cx = .ok blob) (h' : b'.headerHashingBlob cx = .ok blob)
    (hhashes : b.allTransactionHashes cx = .ok hashes)
    (hhashes' : b'.allTransactionHashes cx = .ok hashes')
    (hdata : b.baseTransaction.toBytes = .ok data) (hdata' : b'.baseTransaction.toBytes = .ok data')
    (htree : NoCollision cx (treeInputs cx hashes) (treeInputs cx hashes'))
    (hcoinbase : cx.cnFastHash data = cx.cnFastHash data' → data = data') :
    b.previousBlockHash = b'.previousBlockHash ∧ b.baseTransaction = b'.baseTransaction ∧
      b.transactionHashes = b'.transactionHashes := by
  obtain ⟨xs,hxs,hblob⟩ := headerHashingBlob_eq h
  obtain ⟨ys,hys,hblob'⟩ := headerHashingBlob_eq h'
  obtain rfl : hashes = xs := Except.ok.inj (hhashes.symm.trans hxs)
  obtain rfl : hashes' = ys := Except.ok.inj (hhashes'.symm.trans hys)
  obtain ⟨d,hd,hlist⟩ := allTransactionHashes_eq hhashes
  obtain ⟨d',hd',hlist'⟩ := allTransactionHashes_eq hhashes'
  obtain rfl : data = d := Except.ok.inj (hdata.symm.trans hd)
  obtain rfl : data' = d' := Except.ok.inj (hdata'.symm.trans hd')
  have heq := hblob.symm.trans hblob'
  rw [writeHeader_eq hv, writeHeader_eq hv'] at heq
  simp only [append_assoc] at heq
  obtain ⟨_,heq⟩ := varint_delimited _ _ hb.major_lt hb'.major_lt _ _ heq
  obtain ⟨_,heq⟩ := varint_delimited _ _ hb.minor_lt hb'.minor_lt _ _ heq
  obtain ⟨hprevious,heq⟩ := ByteVec.bytes_delimited 32 _ _ trivial trivial _ _ heq
  obtain ⟨hroot,heq⟩ := ByteVec.bytes_delimited 32 _ _ trivial trivial _ _ heq
  have hcount := (Varint.writeLoop_delimited 10).inj hb.count_lt hb'.count_lt heq
  have hsame := treeHash_inj (by rw [hlist]; simp) (by rw [hlist, hlist']; simpa using hcount)
    htree hroot
  rw [hlist, hlist'] at hsame
  obtain ⟨hhead,htail⟩ := cons.inj hsame
  obtain rfl := hcoinbase hhead
  exact ⟨hprevious,Transaction.toBytes_inj hb.baseTransaction hb'.baseTransaction hdata hdata',htail⟩

section

variable (hv : b.majorVersion ≠ blockMajorVersion1) (hpb : b.parentBlock = some pb)
include hv hpb

/-- The proof-of-work input of a block with a parent block, field by field. -/
theorem powInput_eq {input : Bytes} (h : b.powInput cx = .ok input) :
    input = varint pb.majorVersion ++ (varint pb.minorVersion ++
      (varint b.timestamp ++ (pb.previousBlockHash.bytes ++ (u32Le b.nonce ++
        ((treeHashFromBranch cx pb.baseTransactionBranch (pb.baseTransaction.hash cx)).bytes ++
          varint pb.transactionCount))))) := by
  unfold powInput at h
  rw [if_neg hv] at h
  unfold parentHashingBlob ParentBlock.write at h
  simp only [hpb, orRefuse, bind_ok_iff, if_true] at h
  obtain ⟨_,hsome,_,_,heq⟩ := h
  cases hsome
  rw [← Except.ok.inj heq]
  simp only [append_assoc]

/-- Work accepted for a block with a parent block: the branch of our header ends in the
root of the tag. -/
theorem checkProofOfWork_eq {d : Nat} (h : b.checkProofOfWork cx d = .ok true) :
    ∃ tag blob genesis, pb.mergeMiningTag = some tag ∧ b.headerHashingBlob cx = .ok blob ∧
      genesisBlockHash cx = .ok genesis ∧
      treeHashFromBranchWithPath cx pb.blockchainBranch (hashAsObject cx blob) (some genesis) =
        tag.merkleRoot := by
  unfold checkProofOfWork at h
  simp only [bind_ok_iff] at h
  obtain ⟨_,_,h⟩ := h
  unfold checkProofOfWorkWith at h
  split at h
  · cases h
  simp only [hpb, orRefuse, bind_ok_iff] at h
  obtain ⟨pb',hsome,h⟩ := h
  cases hsome
  split at h
  · cases h
  · rename_i tag htag
    split at h
    · cases h
    · unfold auxiliaryHeaderHash at h
      simp only [bind_ok_iff] at h
      obtain ⟨aux,⟨blob,hblob,haux⟩,genesis,hgenesis,hroot⟩ := h
      cases haux
      have hroot := Except.ok.inj hroot
      simp only [decide_eq_true_eq] at hroot
      exact ⟨tag,blob,genesis,htag,hblob,hgenesis,hroot⟩

end

theorem keccakInputs_eq {coinbase blob : Bytes} {genesis : Hash} {inputs : List Bytes}
    (hpb : b.parentBlock = some pb) (hcoinbase : b.baseTransaction.toBytes = .ok coinbase)
    (hhashes : b.allTransactionHashes cx = .ok hashes) (hblob : b.headerHashingBlob cx = .ok blob)
    (hgenesis : genesisBlockHash cx = .ok genesis) (h : b.keccakInputs cx = .ok inputs) :
    inputs = pb.baseTransaction.hashInputs cx ++
      branchInputs cx pb.baseTransactionBranch (pb.baseTransaction.hash cx) none ++
      coinbase :: treeInputs cx hashes ++
      bytes blob ::
        branchInputs cx pb.blockchainBranch (hashAsObject cx blob) (some genesis) := by
  unfold keccakInputs at h
  simp only [hpb, hcoinbase, hhashes, hblob, hgenesis, orRefuse] at h
  exact (Except.ok.inj h).symm

/-- One proof-of-work input backs one block: the header blob, the previous hash, the
coinbase and the list of transactions are determined by it. -/
theorem powInput_backs_one_block (cx : Crypto) {data data' : Bytes} {b b' : BlockTemplate}
    {d d' : Nat} {input : Bytes} {inputs inputs' : List Bytes}
    (hread : fromBytes data = .ok b) (hread' : fromBytes data' = .ok b')
    (hv : blockMajorVersion2 ≤ b.majorVersion) (hv' : blockMajorVersion2 ≤ b'.majorVersion)
    (hform : ∀ pb ∈ b.parentBlock, ∀ pb' ∈ b'.parentBlock,
      (pb.baseTransaction.body.version < 2 ↔ pb'.baseTransaction.body.version < 2))
    (hwork : b.checkProofOfWork cx d = .ok true) (hwork' : b'.checkProofOfWork cx d' = .ok true)
    (hinput : b.powInput cx = .ok input) (hinput' : b'.powInput cx = .ok input)
    (hinputs : b.keccakInputs cx = .ok inputs) (hinputs' : b'.keccakInputs cx = .ok inputs')
    (hfree : NoCollision cx inputs inputs') :
    b.headerHashingBlob cx = b'.headerHashingBlob cx ∧
      b.previousBlockHash = b'.previousBlockHash ∧ b.baseTransaction = b'.baseTransaction ∧
      b.transactionHashes = b'.transactionHashes := by
  have hb := fromBytes_parsed hread
  have hb' := fromBytes_parsed hread'
  have hne : b.majorVersion ≠ blockMajorVersion1 := by
    unfold blockMajorVersion1
    unfold blockMajorVersion2 at hv
    omega
  have hne' : b'.majorVersion ≠ blockMajorVersion1 := by
    unfold blockMajorVersion1
    unfold blockMajorVersion2 at hv'
    omega
  obtain ⟨pb,hpb,hparsed⟩ := hb.parentBlock hne
  obtain ⟨pb',hpb',hparsed'⟩ := hb'.parentBlock hne'
  obtain ⟨tag,blob,genesis,htag,hblob,hgenesis,hroot⟩ := checkProofOfWork_eq hne hpb hwork
  obtain ⟨tag',blob',genesis',htag',hblob',hgenesis',hroot'⟩ := checkProofOfWork_eq hne' hpb' hwork'
  obtain rfl : genesis = genesis' := Except.ok.inj (hgenesis.symm.trans hgenesis')
  obtain ⟨hashes,hhashes,_⟩ := headerHashingBlob_eq hblob
  obtain ⟨hashes',hhashes',_⟩ := headerHashingBlob_eq hblob'
  obtain ⟨coinbase,hcoinbase,_⟩ := allTransactionHashes_eq hhashes
  obtain ⟨coinbase',hcoinbase',_⟩ := allTransactionHashes_eq hhashes'
  rw [keccakInputs_eq hpb hcoinbase hhashes hblob hgenesis hinputs,
    keccakInputs_eq hpb' hcoinbase' hhashes' hblob' hgenesis hinputs'] at hfree
  -- the input gives the transaction count and the root above the parent coinbase
  have hfields := (powInput_eq hne hpb hinput).symm.trans (powInput_eq hne' hpb' hinput')
  have hsmall {n x : Nat} (hn : n ≤ 16) (hx : x < 2 ^ n) : x < 2 ^ 64 :=
    lt_of_lt_of_le hx (Nat.pow_le_pow_right (by omega) (by omega))
  obtain ⟨_,hfields⟩ := varint_delimited _ _ (hsmall (by omega) hparsed.majorVersion)
    (hsmall (by omega) hparsed'.majorVersion) _ _ hfields
  obtain ⟨_,hfields⟩ := varint_delimited _ _ (hsmall (by omega) hparsed.minorVersion)
    (hsmall (by omega) hparsed'.minorVersion) _ _ hfields
  obtain ⟨_,hfields⟩ := varint_delimited _ _ hb.wellFormed.timestamp
    hb'.wellFormed.timestamp _ _ hfields
  obtain ⟨_,hfields⟩ := ByteVec.bytes_delimited 32 _ _ trivial trivial _ _ hfields
  obtain ⟨_,hfields⟩ := u32Le_delimited _ _ hb.wellFormed.nonce hb'.wellFormed.nonce _ _
    hfields
  obtain ⟨hparentRoot,hfields⟩ := ByteVec.bytes_delimited 32 _ _ trivial trivial _ _ hfields
  have hcount := varint_delimited.inj (hsmall (by omega) hparsed.transactionCount)
    (hsmall (by omega) hparsed'.transactionCount) hfields
  -- the root gives the parent coinbase, and with it the tag
  have hbaseHash := treeHashFromBranch_inj
    (by rw [hparsed.baseTransactionBranch, hparsed'.baseTransactionBranch, hcount])
    (hfree.mono (fun x hx => by simp [hx]) fun x hx => by simp [hx]) hparentRoot
  have hbase := BaseTransaction.hash_inj hparsed.baseTransaction hparsed'.baseTransaction
    (hform pb hpb pb' hpb') (hfree.mono (fun x hx => by simp [hx]) fun x hx => by simp [hx])
    hbaseHash
  have htags : pb.mergeMiningTag = pb'.mergeMiningTag := by
    unfold ParentBlock.mergeMiningTag
    rw [hbase]
  have hdepths := hparsed.blockchainBranch
  rw [htags, hparsed'.blockchainBranch] at hdepths
  obtain rfl : tag = tag' := Option.some.inj (htag.symm.trans (htags.trans htag'))
  -- the tag gives the header
  have haux := treeHashFromBranch_inj (Option.some.inj hdepths).symm
    (hfree.mono (fun x hx => by simp [hx]) fun x hx => by simp [hx]) (hroot.trans hroot'.symm)
  have hwritten := hfree (bytes blob) (by simp) (bytes blob') (by simp) haux
  obtain rfl : blob = blob' := bytes_delimited.inj (headerHashingBlob_length hne hblob)
    (headerHashingBlob_length hne' hblob') hwritten
  have hblock := headerHashingBlob_inj hb hb' hne hne' hblob hblob' hhashes hhashes' hcoinbase
    hcoinbase' (hfree.mono (fun x hx => by simp [hx]) fun x hx => by simp [hx])
    (hfree coinbase (by simp) coinbase' (by simp))
  exact ⟨hblob.trans hblob'.symm,hblock⟩

def sampleMerged : BlockTemplate := sampleBlock 1000000 60 5 sampleGenesisId [mixHash [9]]

def sampleMergedBlob : Bytes := (sampleRaw sampleMerged []).block

def sampleMergedWork : Bytes := (sampleMerged.powInput sampleCrypto).toOption.getD []

def sampleMergedInputs : List Bytes := (sampleMerged.keccakInputs sampleCrypto).toOption.getD []

theorem powInput_backs_one_block_sample :
    NoCollision sampleCrypto sampleMergedInputs sampleMergedInputs ∧
      sampleMerged.headerHashingBlob sampleCrypto = sampleMerged.headerHashingBlob sampleCrypto ∧
      sampleMerged.previousBlockHash = sampleMerged.previousBlockHash ∧
      sampleMerged.baseTransaction = sampleMerged.baseTransaction ∧
      sampleMerged.transactionHashes = sampleMerged.transactionHashes := by
  have hread : fromBytes sampleMergedBlob = .ok sampleMerged := by decide +kernel
  have hwork : sampleMerged.checkProofOfWork sampleCrypto 1 = .ok true := by decide +kernel
  have hinput : sampleMerged.powInput sampleCrypto = .ok sampleMergedWork := by decide +kernel
  have hinputs : sampleMerged.keccakInputs sampleCrypto = .ok sampleMergedInputs := by
    decide +kernel
  have hfree : NoCollision sampleCrypto sampleMergedInputs sampleMergedInputs := by decide +kernel
  refine ⟨hfree,powInput_backs_one_block sampleCrypto hread hread (by decide +kernel)
    (by decide +kernel) ?_ hwork hwork hinput hinput hinputs hinputs hfree⟩
  intro pb hpb pb' hpb'
  rw [Option.mem_def] at hpb hpb'
  rw [Option.some.inj (hpb.symm.trans hpb')]

end BlockTemplate

end Wrkz
