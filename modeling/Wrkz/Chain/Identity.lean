import Wrkz.Chain.MergeMining

/-!
What the hashes bind. A transaction hash binds the bytes of its transaction. A block id
binds the template, and the bytes up to the one field that is read and not kept: the
varint after the parent coinbase of a foreign chain with version 2 or above.
-/

set_option autoImplicit false

namespace Wrkz

open Library Writer Reader List

variable {cx : Crypto}

/-- Accepted bytes are written back, a value that can be written is read back, and so the
hash binds the bytes. -/
theorem Transaction.bytes_canonical (cx : Crypto) :
    (∀ data t, fromBytes data = .ok t → t.toBytes = .ok data) ∧
    (∀ t : Transaction, t.body.Encodable → t.body.isCoinbase = false →
      t.body.version ≤ currentTransactionVersion →
      List.Forall₂ (fun i sigs => sigs.length = Input.ringSize i) t.body.inputs t.signatures →
      ∃ data, t.toBytes = .ok data ∧ fromBytes data = .ok t) ∧
    ∀ data data' t t', fromBytes data = .ok t → fromBytes data' = .ok t' →
      NoCollision cx [data] [data'] → t.hash cx = t'.hash cx → data = data' := by
  refine ⟨fun data t h => toBytes_fromBytes h,fun t hbody hcoinbase hversion hshape => ?_,?_⟩
  · have hparsed : t.Parsed := ⟨hbody,by rw [if_neg (by simp [hcoinbase])]; exact hshape⟩
    exact ⟨_,toBytes_ok hparsed,fromBytes_write hparsed hversion hcoinbase⟩
  · intro data data' t t' h h' hfree hhash
    unfold hash at hhash
    rw [toBytes_fromBytes h, toBytes_fromBytes h'] at hhash
    exact hfree data (by simp) data' (by simp) (Except.ok.inj hhash)

theorem Transaction.bytes_canonical_sample :
    fromBytes (sampleBlob (sampleSpend 10000 0 100 (mixHash [3]))) =
        .ok (sampleSpend 10000 0 100 (mixHash [3])) ∧
      (sampleSpend 10000 0 100 (mixHash [3])).toBytes =
        .ok (sampleBlob (sampleSpend 10000 0 100 (mixHash [3]))) ∧
      ∃ data, (sampleSpend 10000 0 100 (mixHash [3])).toBytes = .ok data ∧
        fromBytes data = .ok (sampleSpend 10000 0 100 (mixHash [3])) := by
  have hread : fromBytes (sampleBlob (sampleSpend 10000 0 100 (mixHash [3]))) =
      .ok (sampleSpend 10000 0 100 (mixHash [3])) := by decide +kernel
  obtain ⟨hback,hround,_⟩ := bytes_canonical sampleCrypto
  have hparsed := finish_takes (takes_read.and_yields yields_read_parsed) hread
  exact ⟨hread,hback _ _ hread,hround _ hparsed.2.body (by decide +kernel) (by decide +kernel)
    hparsed.2.signatures⟩

/-- The bytes of a parent coinbase with a value for the field that is not kept. -/
def BaseTransaction.writeWith (ignored : Nat) (t : BaseTransaction) : Bytes :=
  t.body.write ++ if 2 ≤ t.body.version then varint ignored else []

def ParentBlock.writeWith (ignored : Nat) (pb : ParentBlock) (blockTimestamp blockNonce : Nat) :
    Bytes :=
  varint pb.majorVersion ++ varint pb.minorVersion ++
    varint blockTimestamp ++ pb.previousBlockHash.bytes ++ u32Le blockNonce ++
    varint pb.transactionCount ++ hashes pb.baseTransactionBranch ++
    pb.baseTransaction.writeWith ignored ++ hashes pb.blockchainBranch

/-- The bytes of a block whose parent coinbase, if it has the field, carries `ignored`. -/
def BlockTemplate.writeWith (ignored : Nat) (b : BlockTemplate) : Bytes :=
  b.writeHeader ++
    (b.parentBlock.elim [] fun pb => pb.writeWith ignored b.timestamp b.nonce) ++
    (b.baseTransaction.body.write ++
      b.baseTransaction.signatures.flatMap fun sigs => sigs.flatMap ByteVec.bytes) ++
    varint b.transactionHashes.length ++ hashes b.transactionHashes

def BlockTemplate.CarriesIgnored (b : BlockTemplate) : Prop :=
  ∃ pb ∈ b.parentBlock, 2 ≤ pb.baseTransaction.body.version

/-- What the reader makes sure of that `BlockTemplate.Parsed` does not say. -/
structure BlockTemplate.Shaped (b : BlockTemplate) : Prop where
  versionKnown : versionKnown b.majorVersion
  parentBlock : ∀ pb ∈ b.parentBlock, pb.checkShape false = .ok ⟨⟩
  noParent : b.majorVersion = blockMajorVersion1 → b.parentBlock = none

theorem BaseTransaction.takes_read : Takes BaseTransaction.read fun t w =>
    ∃ i, i < 2 ^ 64 ∧ w = t.writeWith i ∧ (¬ 2 ≤ t.body.version → i = 0) := by
  refine TransactionPrefix.takes_readAnyVersion.bind fun body w hw => ?_
  refine Takes.ite (fun hnew => ?_) fun hold => Takes.pure ?_
  · refine takes_varint.bind fun i w' hw' => Takes.pure ⟨i,hw'.2,?_,fun h => absurd hnew h⟩
    simp only [writeWith]
    rw [if_pos hnew, hw, hw'.1, append_nil]
  · refine ⟨0,by norm_num,?_,fun _ => rfl⟩
    simp only [writeWith]
    rw [if_neg hold, hw]

theorem ParentBlock.takes_read : Takes ParentBlock.read fun x w =>
    ∃ i, i < 2 ^ 64 ∧ w = x.1.writeWith i x.2.1 x.2.2 ∧ x.1.checkShape false = .ok ⟨⟩ ∧
      (¬ 2 ≤ x.1.baseTransaction.body.version → i = 0) := by
  refine (takes_varintBits (by omega)).bind fun major w₁ h₁ => ?_
  refine (takes_varintBits (by omega)).bind fun minor w₂ h₂ => ?_
  refine takes_varint.bind fun timestamp w₃ h₃ => takes_hash.bind fun prev w₄ h₄ => ?_
  refine takes_u32Le.bind fun nonce w₅ h₅ => ?_
  refine (takes_varintBits (by omega)).bind fun txNum w₆ h₆ => ?_
  refine Takes.ite (fun _ => Takes.fail) fun htxNum => ?_
  refine (takes_repeatN takes_hash _).bind fun branch w₇ h₇ => ?_
  refine BaseTransaction.takes_read.bind fun base w₈ h₈ => ?_
  obtain ⟨i,hi,hbase,hzero⟩ := h₈
  split
  · exact Takes.fail
  · rename_i tag htag
    refine Takes.ite (fun _ => Takes.fail) fun hdepth => ?_
    refine (takes_repeatN takes_hash _).bind fun chain w₉ h₉ => Takes.pure ?_
    refine ⟨i,hi,?_,?_,hzero⟩
    · rw [h₁.1, h₂.1, h₃.1, h₄, h₅, h₆.1, h₇.1, hbase, h₉.1]
      simp [writeWith, hashes]
    · have hle : tag.depth ≤ 256 := by omega
      unfold checkShape mergeMiningTag
      simp [htxNum, h₇.2, htag, hle, h₉.2, orRefuse, refuseIf]

namespace BlockTemplate

theorem takes_read : Takes read fun b w =>
    b.Shaped ∧ ∃ i, i < 2 ^ 64 ∧ w = b.writeWith i ∧ (¬ b.CarriesIgnored → i = 0) := by
  refine (takes_varintBits (by omega)).bind fun major w₁ h₁ => ?_
  refine Takes.ite (fun _ => Takes.fail) fun hknown => ?_
  refine (takes_varintBits (by omega)).bind fun minor w₂ h₂ => ?_
  refine Takes.bind (W := fun x w => (∀ pb ∈ x.2.2.2, pb.checkShape false = .ok ⟨⟩) ∧
    (major = blockMajorVersion1 → x.2.2.2 = none) ∧ ∃ i, i < 2 ^ 64 ∧
      w = (if major = blockMajorVersion1 then
          Writer.varint x.1 ++ x.2.1.bytes ++ Writer.u32Le x.2.2.1 else x.2.1.bytes) ++
        (x.2.2.2.elim [] fun pb => pb.writeWith i x.1 x.2.2.1) ∧
      ((¬ ∃ pb ∈ x.2.2.2, 2 ≤ pb.baseTransaction.body.version) → i = 0)) ?_ fun x w hx => ?_
  · refine Takes.ite (fun hone => ?_) fun hne => ?_
    · refine Reader.takes_varint.bind fun ts w₃ h₃ => Reader.takes_hash.bind fun prev w₄ h₄ => ?_
      refine Reader.takes_u32Le.bind fun nonce w₅ h₅ => Takes.pure ?_
      refine ⟨by simp,fun _ => rfl,0,by norm_num,?_,fun _ => rfl⟩
      rw [if_pos hone, h₃.1, h₄, h₅]
      simp
    · refine takes_hash.bind fun prev w₃ h₃ => ParentBlock.takes_read.bind fun x w₄ h₄ => ?_
      obtain ⟨i,hi,hw,hshape,hzero⟩ := h₄
      refine Takes.pure ⟨?_,fun hone => absurd hone hne,i,hi,?_,?_⟩
      · intro pb hpb
        cases hpb
        exact hshape
      · rw [if_neg hne, h₃, hw]
        simp
      · exact fun hnone => hzero fun hnew => hnone ⟨x.1,rfl,hnew⟩
  · obtain ⟨hshape,hnone,i,hi,hw,hzero⟩ := hx
    refine Transaction.takes_read.bind fun base w₃ h₃ => (Reader.takes_count 32).bind fun n w₄ h₄ => ?_
    refine (takes_repeatN takes_hash n).bind fun hashes w₅ h₅ => Takes.pure ?_
    refine ⟨⟨not_not.1 hknown,hshape,hnone⟩,i,hi,?_,hzero⟩
    rw [h₁.1, h₂.1, hw, h₃, h₄, h₅.1, ← h₅.2]
    simp [writeWith, writeHeader, Writer.hashes]

theorem Shaped.two_le {b : BlockTemplate} (hs : b.Shaped)
    (hone : b.majorVersion ≠ blockMajorVersion1) : blockMajorVersion2 ≤ b.majorVersion := by
  have hknown := hs.versionKnown.1
  unfold blockMajorVersion1 at hone
  unfold blockMajorVersion2
  omega

theorem toBytes_eq_writeWith {b : BlockTemplate} (hb : b.Parsed) (hs : b.Shaped) :
    b.toBytes cx = .ok (b.writeWith 0) := by
  have hbase := Transaction.toBytes_ok hb.baseTransaction
  unfold toBytes
  rw [refuseIf, if_neg (not_not.2 hs.versionKnown), hbase]
  by_cases hone : b.majorVersion = blockMajorVersion1
  · rw [if_neg (by rw [hone]; decide)]
    simp [writeWith, hs.noParent hone, Bind.bind, Except.bind, pure, Except.pure]
  · obtain ⟨pb,hpb,_⟩ := hb.parentBlock hone
    rw [if_pos (hs.two_le hone), hpb]
    simp [writeWith, hpb, hs.parentBlock pb hpb, ParentBlock.write, orRefuse, Bind.bind,
      Except.bind, pure, Except.pure, ParentBlock.writeWith, BaseTransaction.writeWith,
      BaseTransaction.write]

end BlockTemplate

theorem Varint.writeLoop_length_eq (fuel : Nat) {a b : Nat} {s t : Bytes}
    (h : writeLoop fuel a ++ s = writeLoop fuel b ++ t) :
    (writeLoop fuel a).length = (writeLoop fuel b).length := by
  induction fuel generalizing a b with
  | zero => rfl
  | succ fuel ih =>
    have hbytes {x y : Nat} (hxy : UInt8.ofNat (x % 0x80 + 0x80) = UInt8.ofNat y) : 0x80 ≤ y := by
      have hval := congrArg UInt8.toNat hxy
      simp only [UInt8.toNat_ofNat'] at hval
      omega
    unfold writeLoop at h ⊢
    split at h <;> split at h
    · rename_i ha hb
      rw [if_pos ha, if_pos hb, length_cons, length_cons, ih (cons.inj h).2]
    · rename_i hb
      exact absurd (hbytes (cons.inj h).1) hb
    · rename_i hb _
      exact absurd (hbytes (cons.inj h).1.symm) hb
    · rename_i ha hb
      rw [if_neg ha, if_neg hb]
      rfl

theorem Writer.bytes_inj {a b : Bytes} (h : bytes a = bytes b) : a = b :=
  (append_inj h (Varint.writeLoop_length_eq 10 h)).2

theorem Writer.hashes_delimited {xs ys : List Hash} (hlen : xs.length = ys.length) {s t : Bytes}
    (h : hashes xs ++ s = hashes ys ++ t) : xs = ys ∧ s = t :=
  (ByteVec.bytes_delimited 32).flatMap xs ys hlen (fun _ _ => trivial) (fun _ _ => trivial) s t h

def ParentBlock.hashingBytes (cx : Crypto) (pb : ParentBlock) (timestamp nonce : Nat) : Bytes :=
  varint pb.majorVersion ++ (varint pb.minorVersion ++ (varint timestamp ++
    (pb.previousBlockHash.bytes ++ (u32Le nonce ++
      ((treeHashFromBranch cx pb.baseTransactionBranch (pb.baseTransaction.hash cx)).bytes ++
        (varint pb.transactionCount ++ (hashes pb.baseTransactionBranch ++
          (pb.baseTransaction.write ++ hashes pb.blockchainBranch))))))))

theorem ParentBlock.write_eq_hashingBytes {pb : ParentBlock} {timestamp nonce : Nat}
    (h : pb.checkShape false = .ok ⟨⟩) :
    pb.write cx timestamp nonce true false = .ok (pb.hashingBytes cx timestamp nonce) := by
  unfold write hashingBytes
  simp [h, Bind.bind, Except.bind, pure, Except.pure]

theorem BaseTransaction.write_delimited {s t : BaseTransaction} (hs : s.body.Encodable)
    (ht : t.body.Encodable) {u v : Bytes} (h : s.write ++ u = t.write ++ v) : s = t ∧ u = v := by
  unfold write at h
  rw [append_assoc, append_assoc] at h
  obtain ⟨hbody,hrest⟩ := TransactionPrefix.write_delimited _ _ hs ht _ _ h
  rw [hbody] at hrest
  refine ⟨?_,append_cancel_left hrest⟩
  cases s
  cases t
  simp_all

/-- The parent block and the block's own timestamp and nonce are read off the bytes. -/
theorem ParentBlock.hashingBytes_inj {p q : ParentBlock} {ts ts' nonce nonce' : Nat} (hp : p.Parsed)
    (hq : q.Parsed) (hts : ts < 2 ^ 64) (hts' : ts' < 2 ^ 64) (hnonce : nonce < 2 ^ 32)
    (hnonce' : nonce' < 2 ^ 32) (h : p.hashingBytes cx ts nonce = q.hashingBytes cx ts' nonce') :
    p = q ∧ ts = ts' ∧ nonce = nonce' := by
  have hsmall {n x : Nat} (hn : n ≤ 16) (hx : x < 2 ^ n) : x < 2 ^ 64 :=
    lt_of_lt_of_le hx (Nat.pow_le_pow_right (by omega) (by omega))
  unfold hashingBytes at h
  obtain ⟨hmajor,h⟩ := varint_delimited _ _ (hsmall (by omega) hp.majorVersion)
    (hsmall (by omega) hq.majorVersion) _ _ h
  obtain ⟨hminor,h⟩ := varint_delimited _ _ (hsmall (by omega) hp.minorVersion)
    (hsmall (by omega) hq.minorVersion) _ _ h
  obtain ⟨htime,h⟩ := varint_delimited _ _ hts hts' _ _ h
  obtain ⟨hprev,h⟩ := ByteVec.bytes_delimited 32 _ _ trivial trivial _ _ h
  obtain ⟨hn,h⟩ := u32Le_delimited _ _ hnonce hnonce' _ _ h
  obtain ⟨_,h⟩ := ByteVec.bytes_delimited 32 _ _ trivial trivial _ _ h
  obtain ⟨hcount,h⟩ := varint_delimited _ _ (hsmall (by omega) hp.transactionCount)
    (hsmall (by omega) hq.transactionCount) _ _ h
  have hdepth : p.baseTransactionBranch.length = q.baseTransactionBranch.length := by
    rw [hp.baseTransactionBranch, hq.baseTransactionBranch, hcount]
  obtain ⟨hbranch,h⟩ := hashes_delimited hdepth h
  obtain ⟨hbase,h⟩ := BaseTransaction.write_delimited hp.baseTransaction hq.baseTransaction h
  -- the tag of the coinbase says how long the last branch is
  have htag : p.mergeMiningTag = q.mergeMiningTag := by
    unfold mergeMiningTag
    rw [hbase]
  have hlen := hp.blockchainBranch
  rw [htag, hq.blockchainBranch] at hlen
  have hchain : p.blockchainBranch = q.blockchainBranch :=
    (hashes_delimited (s := []) (t := []) (Option.some.inj hlen).symm
      (by rw [append_nil, append_nil, h])).1
  refine ⟨?_,htime,hn⟩
  cases p
  cases q
  simp_all

namespace BlockTemplate

/-- The strings that Keccak is applied to for the parts of an id that are hashed before
they enter it, and for the id itself. -/
def idInputs (cx : Crypto) (b : BlockTemplate) : Except Error (List Bytes) := do
  let coinbase ← b.baseTransaction.toBytes
  let hashes ← b.allTransactionHashes cx
  let header ← b.headerHashingBlob cx
  let parent ←
    if blockMajorVersion2 ≤ b.majorVersion then b.parentHashingBlob cx false else pure []
  pure (coinbase :: treeInputs cx hashes ++ [Writer.bytes (header ++ parent)])

def coinbaseBytes (b : BlockTemplate) : Bytes :=
  b.baseTransaction.body.write ++
    b.baseTransaction.signatures.flatMap fun sigs => sigs.flatMap ByteVec.bytes

def idTail (cx : Crypto) (b : BlockTemplate) : Bytes :=
  (treeHash cx (cx.cnFastHash b.coinbaseBytes :: b.transactionHashes)).bytes ++
    (Writer.varint (b.transactionHashes.length+1) ++
      b.parentBlock.elim [] fun pb => pb.hashingBytes cx b.timestamp b.nonce)

variable {b : BlockTemplate}

theorem parent_for_id (cx : Crypto) (hb : b.Parsed) (hs : b.Shaped) :
    ¬ blockMajorVersion2 ≤ b.majorVersion ∧ b.parentBlock = none ∨
      blockMajorVersion2 ≤ b.majorVersion ∧ ∃ pb, b.parentBlock = some pb ∧
        b.parentHashingBlob cx false = .ok (pb.hashingBytes cx b.timestamp b.nonce) := by
  by_cases hone : b.majorVersion = blockMajorVersion1
  · exact .inl ⟨by rw [hone]; decide,hs.noParent hone⟩
  · obtain ⟨pb,hpb,_⟩ := hb.parentBlock hone
    refine .inr ⟨hs.two_le hone,pb,hpb,?_⟩
    unfold parentHashingBlob
    rw [hpb]
    exact ParentBlock.write_eq_hashingBytes (hs.parentBlock pb hpb)

theorem idInputs_eq (hb : b.Parsed) (hs : b.Shaped) :
    b.idInputs cx = .ok (b.coinbaseBytes ::
      treeInputs cx (cx.cnFastHash b.coinbaseBytes :: b.transactionHashes) ++
        [Writer.bytes (b.writeHeader ++ b.idTail cx)]) := by
  unfold idInputs headerHashingBlob allTransactionHashes Transaction.hash
  rw [Transaction.toBytes_ok hb.baseTransaction]
  rcases parent_for_id cx hb hs with ⟨hold,hnone⟩ | ⟨hnew,pb,hpb,hparent⟩
  · simp [hold, hnone, Bind.bind, Except.bind, pure, Except.pure, idTail, coinbaseBytes]
  · simp [hnew, hpb, hparent, Bind.bind, Except.bind, pure, Except.pure, idTail, coinbaseBytes]

theorem hash_eq (hb : b.Parsed) (hs : b.Shaped) :
    b.hash cx = .ok (hashAsObject cx (b.writeHeader ++ b.idTail cx)) := by
  unfold hash headerHashingBlob allTransactionHashes Transaction.hash
  rw [Transaction.toBytes_ok hb.baseTransaction]
  rcases parent_for_id cx hb hs with ⟨hold,hnone⟩ | ⟨hnew,pb,hpb,hparent⟩
  · simp [hold, hnone, Bind.bind, Except.bind, pure, Except.pure, idTail, coinbaseBytes]
  · simp [hnew, hpb, hparent, Bind.bind, Except.bind, pure, Except.pure, idTail, coinbaseBytes]

theorem idTail_inj {b b' : BlockTemplate} (hb : b.Parsed) (hb' : b'.Parsed)
    (hfree : NoCollision cx (b.coinbaseBytes ::
        treeInputs cx (cx.cnFastHash b.coinbaseBytes :: b.transactionHashes)) (b'.coinbaseBytes ::
        treeInputs cx (cx.cnFastHash b'.coinbaseBytes :: b'.transactionHashes)))
    (h : b.idTail cx = b'.idTail cx) :
    b.baseTransaction = b'.baseTransaction ∧ b.transactionHashes = b'.transactionHashes ∧
      (b.parentBlock.elim [] fun pb => pb.hashingBytes cx b.timestamp b.nonce) =
        b'.parentBlock.elim [] fun pb => pb.hashingBytes cx b'.timestamp b'.nonce := by
  unfold idTail at h
  obtain ⟨hroot,h⟩ := ByteVec.bytes_delimited 32 _ _ trivial trivial _ _ h
  obtain ⟨hcount,hparent⟩ := Varint.writeLoop_delimited 10 _ _ hb.count_lt hb'.count_lt _ _ h
  have hsame := treeHash_inj (by simp) (by simpa using hcount)
    (hfree.mono (subset_cons_self _ _) (subset_cons_self _ _)) hroot
  obtain ⟨hhead,htail⟩ := cons.inj hsame
  have hcoinbase : b.coinbaseBytes = b'.coinbaseBytes := hfree _ mem_cons_self _ mem_cons_self hhead
  have hbase := Transaction.toBytes_inj hb.baseTransaction hb'.baseTransaction
    (Transaction.toBytes_ok hb.baseTransaction)
    (by rw [Transaction.toBytes_ok hb'.baseTransaction]; exact congrArg _ hcoinbase.symm)
  exact ⟨hbase,htail,hparent⟩

theorem hash_inj {b b' : BlockTemplate} {inputs inputs' : List Bytes} (hb : b.Parsed)
    (hb' : b'.Parsed) (hs : b.Shaped) (hs' : b'.Shaped) (hinputs : b.idInputs cx = .ok inputs)
    (hinputs' : b'.idInputs cx = .ok inputs') (hfree : NoCollision cx inputs inputs')
    (h : b.hash cx = b'.hash cx) : b = b' := by
  obtain rfl := Except.ok.inj ((idInputs_eq hb hs).symm.trans hinputs)
  obtain rfl := Except.ok.inj ((idInputs_eq hb' hs').symm.trans hinputs')
  rw [hash_eq hb hs, hash_eq hb' hs'] at h
  have hblob := Writer.bytes_inj (hfree _ (by simp) _ (by simp) (Except.ok.inj h))
  have hinj (htail : b.idTail cx = b'.idTail cx) := idTail_inj hb hb'
    (hfree.mono (subset_append_left _ _) (subset_append_left _ _)) htail
  unfold writeHeader at hblob
  simp only [append_assoc] at hblob
  obtain ⟨hmajor,hblob⟩ := varint_delimited _ _ hb.major_lt hb'.major_lt _ _ hblob
  obtain ⟨hmin,hblob⟩ := varint_delimited _ _ hb.minor_lt hb'.minor_lt _ _ hblob
  by_cases hone : b.majorVersion = blockMajorVersion1
  · have hone' := hmajor.symm.trans hone
    rw [if_pos hone, if_pos hone'] at hblob
    simp only [append_assoc] at hblob
    obtain ⟨hts,hblob⟩ := varint_delimited _ _ hb.wellFormed.timestamp
      hb'.wellFormed.timestamp _ _ hblob
    obtain ⟨hprev,hblob⟩ := ByteVec.bytes_delimited 32 _ _ trivial trivial _ _ hblob
    obtain ⟨hnonce,hblob⟩ := u32Le_delimited _ _ hb.wellFormed.nonce hb'.wellFormed.nonce
      _ _ hblob
    obtain ⟨hbase,hhashes,_⟩ := hinj hblob
    have hparent := (hs.noParent hone).trans (hs'.noParent hone').symm
    cases b
    cases b'
    simp_all
  · have hone' : b'.majorVersion ≠ blockMajorVersion1 := hmajor ▸ hone
    rw [if_neg hone, if_neg hone'] at hblob
    obtain ⟨hprev,hblob⟩ := ByteVec.bytes_delimited 32 _ _ trivial trivial _ _ hblob
    obtain ⟨hbase,hhashes,hparent⟩ := hinj hblob
    obtain ⟨pb,hpb,hp⟩ := hb.parentBlock hone
    obtain ⟨pb',hpb',hp'⟩ := hb'.parentBlock hone'
    rw [hpb, hpb'] at hparent
    obtain ⟨hpbs,hts,hnonce⟩ := ParentBlock.hashingBytes_inj hp hp' hb.wellFormed.timestamp
      hb'.wellFormed.timestamp hb.wellFormed.nonce hb'.wellFormed.nonce hparent
    cases b
    cases b'
    simp_all

/-- One id, one block up to the field that is not kept; without it, or with its zero, one
string of bytes, the one `to_bytes` sends. -/
theorem id_binds_bytes (cx : Crypto) {data data' : Bytes} {b b' : BlockTemplate}
    {inputs inputs' : List Bytes} (hread : fromBytes data = .ok b)
    (hread' : fromBytes data' = .ok b') (hinputs : b.idInputs cx = .ok inputs)
    (hinputs' : b'.idInputs cx = .ok inputs') (hfree : NoCollision cx inputs inputs')
    (hid : b.hash cx = b'.hash cx) :
    b = b' ∧ ∃ i i', i < 2 ^ 64 ∧ i' < 2 ^ 64 ∧ data = b.writeWith i ∧ data' = b.writeWith i' ∧
      (¬ b.CarriesIgnored ∨ i = 0 ∧ i' = 0 → data = data' ∧ b.toBytes cx = .ok data) := by
  have hb := fromBytes_parsed hread
  have hb' := fromBytes_parsed hread'
  obtain ⟨hs,i,hi,hdata,hzero⟩ := finish_takes takes_read hread
  obtain ⟨hs',i',hi',hdata',hzero'⟩ := finish_takes takes_read hread'
  obtain rfl := hash_inj hb hb' hs hs' hinputs hinputs' hfree hid
  refine ⟨rfl,i,i',hi,hi',hdata,hdata',fun h => ?_⟩
  have hboth : i = 0 ∧ i' = 0 := h.elim (fun hnone => ⟨hzero hnone,hzero' hnone⟩) fun hz => hz
  rw [hdata, hdata', hboth.1, hboth.2]
  exact ⟨rfl,toBytes_eq_writeWith hb hs⟩

/-- A block whose parent block is of a chain with coinbases of version 2. -/
def sampleForeign : BlockTemplate :=
  { sampleMerged with
    parentBlock := sampleMerged.parentBlock.map fun pb =>
      { pb with baseTransaction := ⟨{ pb.baseTransaction.body with version := 2 }⟩ } }

def sampleForeignInputs : List Bytes := (sampleForeign.idInputs sampleCrypto).toOption.getD []

theorem id_binds_bytes_sample :
    NoCollision sampleCrypto sampleForeignInputs sampleForeignInputs ∧
      sampleForeign = sampleForeign ∧ ∃ i i', i < 2 ^ 64 ∧ i' < 2 ^ 64 ∧
        sampleForeign.writeWith 0 = sampleForeign.writeWith i ∧
        sampleForeign.writeWith 1 = sampleForeign.writeWith i' ∧
        (¬ sampleForeign.CarriesIgnored ∨ i = 0 ∧ i' = 0 →
          sampleForeign.writeWith 0 = sampleForeign.writeWith 1 ∧
            sampleForeign.toBytes sampleCrypto = .ok (sampleForeign.writeWith 0)) := by
  have hinputs : sampleForeign.idInputs sampleCrypto = .ok sampleForeignInputs := by decide +kernel
  have hfree : NoCollision sampleCrypto sampleForeignInputs sampleForeignInputs := by decide +kernel
  exact ⟨hfree,id_binds_bytes sampleCrypto (by decide +kernel) (by decide +kernel) hinputs hinputs
    hfree rfl⟩

/-- Two strings of bytes, one id: the second carries a one where `to_bytes` sends zero. -/
theorem id_binds_less_than_bytes :
    fromBytes (sampleForeign.writeWith 0) = .ok sampleForeign ∧
      fromBytes (sampleForeign.writeWith 1) = .ok sampleForeign ∧
      sampleForeign.writeWith 0 ≠ sampleForeign.writeWith 1 ∧
      sampleForeign.toBytes sampleCrypto = .ok (sampleForeign.writeWith 0) ∧
      (sampleForeign.hash sampleCrypto).isOk = true ∧
      NoCollision sampleCrypto sampleForeignInputs sampleForeignInputs := by
  refine ⟨?_,?_,?_,?_,?_,?_⟩ <;> decide +kernel

end BlockTemplate

end Wrkz
