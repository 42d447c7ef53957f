import Wrkz.Primitives.Canonical

/-!
What a block writes is read back. The head of a block, its parent included, is read on
its own, so that a block whose coinbase does not read can be followed up to there.
-/

set_option autoImplicit false

namespace Wrkz

open Library Reader Writer

theorem bind_fail {α β : Type} {r : Reader α} {f : α → Reader β} {s : Bytes} {e : Error}
    (h : r s = .error e) : (r >>= f) s = .error e := by
  simp [Bind.bind, StateT.bind, Except.bind, h]

theorem Reader.u32Le_write {v : Nat} (hv : v < 2 ^ 32) (rest : Bytes) :
    Reader.u32Le (Writer.u32Le v ++ rest) = .ok (v,rest) := by
  have hlen : (Writer.u32Le v).length = 4 := rfl
  unfold Reader.u32Le
  rw [bind_run (Reader.raw_write ⟨Writer.u32Le v,hlen⟩ rest)]
  have hvalue : (Writer.u32Le v).foldr (fun b acc => b.toNat + 256*acc) 0 = v := by
    simp only [Writer.u32Le, List.foldr_cons, List.foldr_nil, UInt8.toNat_ofNat']
    omega
  simp only [hvalue]
  rfl

theorem Reader.repeatN_hash_write (hs : List Hash) (rest : Bytes) :
    repeatN hash hs.length (hashes hs ++ rest) = .ok (hs,rest) :=
  repeatN_write rest hs fun h _ t => hash_write h t

theorem BaseTransaction.read_write {t : BaseTransaction} (h : t.body.Encodable) (rest : Bytes) :
    BaseTransaction.read (t.write ++ rest) = .ok (t,rest) := by
  unfold read write
  rw [List.append_assoc, bind_run (TransactionPrefix.readAnyVersion_write h _)]
  by_cases hversion : 2 ≤ t.body.version
  · rw [if_pos hversion, if_pos hversion, bind_run (varint_write (by norm_num) rest)]
    rfl
  · rw [if_neg hversion, if_neg hversion]
    rfl

theorem TransactionPrefix.read_write {p : TransactionPrefix} (h : p.Encodable)
    (hversion : p.version ≤ currentTransactionVersion) (rest : Bytes) :
    TransactionPrefix.read (p.write ++ rest) = .ok (p,rest) := by
  unfold TransactionPrefix.read
  rw [bind_run (readAnyVersion_write h rest), if_neg (by omega)]
  rfl

theorem Transaction.read_coinbase {t : Transaction} (h : t.body.Encodable)
    (hversion : t.body.version ≤ currentTransactionVersion) (hcoinbase : t.body.isCoinbase = true)
    (hsigs : t.signatures = []) (rest : Bytes) :
    Transaction.read (t.body.write ++ rest) = .ok (t,rest) := by
  obtain ⟨index,hinputs⟩ := TransactionPrefix.inputs_of_isCoinbase hcoinbase
  have hread : readSignatures t.body.inputs rest = .ok ([[]],rest) := by
    rw [hinputs]
    rfl
  unfold read
  rw [bind_run (TransactionPrefix.read_write h hversion rest), bind_run hread, if_pos hcoinbase,
    ← hsigs]
  rfl

theorem Transaction.read_past_u32 {t : Transaction} (hversion : t.body.version < 2 ^ 8)
    (hunlock : t.body.unlockTime < 2 ^ 64) (hinputs : t.body.inputs = [.base (2 ^ 32)])
    (rest : Bytes) : Transaction.read (t.body.write ++ rest) = .error .badVarint := by
  have hinput (tail : Bytes) : repeatN Input.read 1
      ((Input.base (2 ^ 32)).write ++ tail) = .error .badVarint := rfl
  have hcount (tail : Bytes) : count 2 (varint 1 ++
      ((Input.base (2 ^ 32)).write ++ tail)) = .ok (1,_) :=
    count_write (by omega) (by omega)
      (by have := (Input.base (2 ^ 32)).write_length; simp only [List.length_append]; omega)
  unfold Transaction.read TransactionPrefix.read TransactionPrefix.readAnyVersion TransactionPrefix.write
  simp only [hinputs, List.length_singleton, List.flatMap_singleton, List.append_assoc]
  refine bind_fail (bind_fail ?_)
  rw [bind_run (varintBits_write (by omega) (by omega) hversion _),
    bind_run (varint_write hunlock _), bind_run (hcount _), bind_fail (hinput _)]

namespace ParentBlock

structure Encodable (pb : ParentBlock) : Prop where
  majorVersion : pb.majorVersion < 2 ^ 8
  minorVersion : pb.minorVersion < 2 ^ 8
  transactionCount : pb.transactionCount < 2 ^ 16
  body : pb.baseTransaction.body.Encodable

theorem checkShape_ok {pb : ParentBlock} (h : pb.checkShape false = .ok ⟨⟩) :
    1 ≤ pb.transactionCount ∧ pb.baseTransactionBranch.length = treeDepth pb.transactionCount ∧
      ∃ tag, pb.mergeMiningTag = some tag ∧ tag.depth ≤ 256 ∧
        tag.depth = pb.blockchainBranch.length := by
  unfold checkShape at h
  simp only [bind_ok_iff, refuseIf_ok_iff, orRefuse_ok_iff, Bool.false_eq_true, if_false] at h
  obtain ⟨_,hcount,_,hbranch,tag,htag,_,hdepth,hlen⟩ := h
  exact ⟨by omega,not_not.1 hbranch,tag,htag,by omega,not_not.1 hlen⟩

theorem read_write {cx : Crypto} {pb : ParentBlock} {timestamp nonce : Nat} {data : Bytes}
    (h : pb.Encodable) (hts : timestamp < 2 ^ 64) (hnonce : nonce < 2 ^ 32)
    (hdata : pb.write cx timestamp nonce false false = .ok data) (rest : Bytes) :
    ParentBlock.read (data ++ rest) = .ok ((pb,timestamp,nonce),rest) := by
  unfold write at hdata
  simp only [bind_ok_iff, Bool.false_eq_true, if_false] at hdata
  obtain ⟨_,hshape,heq⟩ := hdata
  cases heq
  obtain ⟨hcount,hbranch,tag,htag,hdepth,hchain⟩ := checkShape_ok hshape
  unfold mergeMiningTag at htag
  have hbranchRead (t : Bytes) := repeatN_hash_write pb.baseTransactionBranch t
  have hchainRead (t : Bytes) := repeatN_hash_write pb.blockchainBranch t
  rw [hbranch] at hbranchRead
  rw [← hchain] at hchainRead
  unfold read
  simp only [List.append_assoc, List.nil_append]
  rw [bind_run (varintBits_write (by omega) (by omega) h.majorVersion _),
    bind_run (varintBits_write (by omega) (by omega) h.minorVersion _),
    bind_run (varint_write hts _), bind_run (hash_write _ _), bind_run (u32Le_write hnonce _),
    bind_run (varintBits_write (by omega) (by omega) h.transactionCount _),
    if_neg (by omega), bind_run (hbranchRead _), bind_run (BaseTransaction.read_write h.body _)]
  simp only [htag]
  rw [if_neg (by omega), bind_run (hchainRead _)]
  rfl

end ParentBlock

namespace BlockTemplate

/-- The fields in front of the coinbase are in the ranges of their types, and the parent
block is there when the version has one. -/
structure HeadEncodable (b : BlockTemplate) : Prop where
  minorVersion : b.minorVersion < 2 ^ 8
  timestamp : b.timestamp < 2 ^ 64
  nonce : b.nonce < 2 ^ 32
  parent : ∀ pb, b.parentBlock = some pb → pb.Encodable
  first : b.majorVersion = blockMajorVersion1 → b.parentBlock = none

/-- What the reader does after the head of `b`. -/
def readTail (b : BlockTemplate) : Reader BlockTemplate := do
  let baseTransaction ← Transaction.read
  let n ← Reader.count 32
  let transactionHashes ← Reader.repeatN Reader.hash n
  pure { b with baseTransaction, transactionHashes }

/-- The bytes of the parent block, for the versions that have one. -/
def WritesParent (cx : Crypto) (b : BlockTemplate) (parent : Bytes) : Prop :=
  if blockMajorVersion2 ≤ b.majorVersion then
    ∃ pb, b.parentBlock = some pb ∧ pb.write cx b.timestamp b.nonce false false = .ok parent
  else parent = []

variable {b : BlockTemplate} {cx : Crypto} {data : Bytes}

theorem toBytes_ok_iff :
    b.toBytes cx = .ok data ↔ versionKnown b.majorVersion ∧ ∃ parent coinbase,
      b.WritesParent cx parent ∧ b.baseTransaction.toBytes = .ok coinbase ∧
      b.writeHeader ++ parent ++ coinbase ++ varint b.transactionHashes.length ++
        hashes b.transactionHashes = data := by
  unfold toBytes WritesParent
  rw [bind_ok_iff]
  simp only [refuseIf_ok_iff, not_not, exists_and_left, exists_const]
  refine and_congr_right fun _ => ?_
  by_cases hmajor : blockMajorVersion2 ≤ b.majorVersion
  · simp only [if_pos hmajor, bind_ok_iff, orRefuse_ok_iff]
    constructor
    · rintro ⟨pb,hpb,parent,hparent,coinbase,hcoinbase,heq⟩
      exact ⟨parent,⟨pb,hpb,hparent⟩,coinbase,hcoinbase,Except.ok.inj heq⟩
    · rintro ⟨parent,⟨pb,hpb,hparent⟩,coinbase,hcoinbase,heq⟩
      exact ⟨pb,hpb,parent,hparent,coinbase,hcoinbase,congrArg _ heq⟩
  · simp only [if_neg hmajor, bind_ok_iff]
    constructor
    · rintro ⟨parent,hparent,coinbase,hcoinbase,heq⟩
      exact ⟨parent,(Except.ok.inj hparent).symm,coinbase,hcoinbase,Except.ok.inj heq⟩
    · rintro ⟨parent,rfl,coinbase,hcoinbase,heq⟩
      exact ⟨[],rfl,coinbase,hcoinbase,congrArg _ heq⟩

theorem read_head {parent : Bytes} (h : b.HeadEncodable) (hversion : versionKnown b.majorVersion)
    (hparent : b.WritesParent cx parent) (rest : Bytes) :
    read (b.writeHeader ++ parent ++ rest) = b.readTail rest := by
  have hmajor : b.majorVersion < 2 ^ 8 := by
    have := hversion.2
    unfold maxBlockMajorVersion at this
    omega
  unfold WritesParent at hparent
  unfold read writeHeader
  simp only [List.append_assoc]
  rw [bind_run (varintBits_write (by omega) (by omega) hmajor _), if_neg (not_not.2 hversion),
    bind_run (varintBits_write (by omega) (by omega) h.minorVersion _)]
  by_cases hfirst : b.majorVersion = blockMajorVersion1
  · rw [if_neg (by rw [hfirst]; decide)] at hparent
    simp only [if_pos hfirst, hparent, List.append_assoc, List.nil_append]
    have hpart : (do
        let ts ← Reader.varint
        let prev ← Reader.hash
        let nonce ← Reader.u32Le
        pure (ts,prev,nonce,none) : Reader (Nat × Hash × Nat × Option ParentBlock))
        (varint b.timestamp ++ (b.previousBlockHash.bytes ++ (u32Le b.nonce ++ rest))) =
        .ok ((b.timestamp,b.previousBlockHash,b.nonce,none),rest) := by
      rw [bind_run (varint_write h.timestamp _), bind_run (hash_write _ _),
        bind_run (u32Le_write h.nonce _)]
      rfl
    rw [bind_run hpart, ← h.first hfirst]
    rfl
  · have htwo : blockMajorVersion2 ≤ b.majorVersion := by
      have hlow := hversion.1
      unfold blockMajorVersion1 at hfirst
      unfold blockMajorVersion2
      omega
    rw [if_pos htwo] at hparent
    obtain ⟨pb,hpb,hwrite⟩ := hparent
    simp only [if_neg hfirst]
    have hpart : (do
        let prev ← Reader.hash
        let x ← ParentBlock.read
        pure (x.2.1,prev,x.2.2,some x.1) : Reader (Nat × Hash × Nat × Option ParentBlock))
        (b.previousBlockHash.bytes ++ (parent ++ rest)) =
        .ok ((b.timestamp,b.previousBlockHash,b.nonce,some pb),rest) := by
      rw [bind_run (hash_write _ _),
        bind_run (ParentBlock.read_write (h.parent pb hpb) h.timestamp h.nonce hwrite _)]
      rfl
    rw [bind_run hpart, ← hpb]
    rfl

theorem readTail_write (hbody : b.baseTransaction.body.Encodable)
    (hversion : b.baseTransaction.body.version ≤ currentTransactionVersion)
    (hcoinbase : b.baseTransaction.body.isCoinbase = true)
    (hsigs : b.baseTransaction.signatures = []) (hcount : b.transactionHashes.length < 2 ^ 64) :
    b.readTail (b.baseTransaction.body.write ++ (varint b.transactionHashes.length ++
      hashes b.transactionHashes)) = .ok (b,[]) := by
  have hlen : b.transactionHashes.length * 32 ≤ (hashes b.transactionHashes).length :=
    length_flatMap_ge _ fun h _ => by rw [h.length_eq]
  have hhashes := repeatN_hash_write b.transactionHashes []
  rw [List.append_nil] at hhashes
  unfold readTail
  rw [bind_run (Transaction.read_coinbase hbody hversion hcoinbase hsigs _),
    bind_run (count_write (by omega) hcount hlen), bind_run hhashes]
  rfl

theorem fromBytes_toBytes (hhead : b.HeadEncodable) (hbody : b.baseTransaction.body.Encodable)
    (hversion : b.baseTransaction.body.version ≤ currentTransactionVersion)
    (hcoinbase : b.baseTransaction.body.isCoinbase = true)
    (hsigs : b.baseTransaction.signatures = []) (hcount : b.transactionHashes.length < 2 ^ 64)
    (h : b.toBytes cx = .ok data) : fromBytes data = .ok b := by
  obtain ⟨hknown,parent,coinbase,hparent,hbytes,rfl⟩ := toBytes_ok_iff.1 h
  rw [Transaction.toBytes_eq hbytes, hsigs, List.flatMap_nil, List.append_nil, fromBytes,
    finish_eq_ok, List.append_assoc, List.append_assoc, read_head hhead hknown hparent,
    readTail_write hbody hversion hcoinbase hsigs hcount]

/-- A block that reads at all has the parent id that was written. -/
theorem previousBlockHash_of_fromBytes {c : BlockTemplate} (hhead : b.HeadEncodable)
    (h : b.toBytes cx = .ok data) (hread : fromBytes data = .ok c) :
    c.previousBlockHash = b.previousBlockHash := by
  obtain ⟨hknown,parent,coinbase,hparent,_,rfl⟩ := toBytes_ok_iff.1 h
  rw [fromBytes, finish_eq_ok, List.append_assoc, List.append_assoc,
    read_head hhead hknown hparent] at hread
  have htail : Yields b.readTail (·.previousBlockHash = b.previousBlockHash) :=
    Yields.any.bind fun _ _ => Yields.any.bind fun _ _ => Yields.any.bind fun _ _ => Yields.pure rfl
  exact htail _ _ _ hread

theorem fromBytes_past_u32 (hhead : b.HeadEncodable)
    (hversion : b.baseTransaction.body.version < 2 ^ 8)
    (hunlock : b.baseTransaction.body.unlockTime < 2 ^ 64)
    (hinputs : b.baseTransaction.body.inputs = [.base (2 ^ 32)])
    (hsigs : b.baseTransaction.signatures = []) (h : b.toBytes cx = .ok data) :
    fromBytes data = .error .badVarint := by
  obtain ⟨hknown,parent,coinbase,hparent,hbytes,rfl⟩ := toBytes_ok_iff.1 h
  have hrun : read (b.writeHeader ++ parent ++ coinbase ++
      varint b.transactionHashes.length ++ hashes b.transactionHashes) =
      .error .badVarint := by
    rw [Transaction.toBytes_eq hbytes, hsigs, List.flatMap_nil, List.append_nil, List.append_assoc,
      List.append_assoc, read_head hhead hknown hparent, readTail,
      bind_fail (Transaction.read_past_u32 hversion hunlock hinputs _)]
  rw [fromBytes, finish, hrun]

end BlockTemplate

end Wrkz
