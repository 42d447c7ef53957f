import Wrkz.Primitives.Extra
import Wrkz.Primitives.Constants

/-!
Block templates with their parent (merge-mining) block, the block id, and the
proof-of-work test.
-/

set_option autoImplicit false

namespace Wrkz

open Library Reader Writer

def hashPair (cx : Crypto) (left right : Hash) : Hash := cx.cnFastHash (left.bytes ++ right.bytes)

def hashPairs (cx : Crypto) : List Hash → List Hash
  | l :: r :: rest => hashPair cx l r :: hashPairs cx rest
  | rest => rest

/-- Reduce a level of `2^k` hashes to one. -/
def treeLevels (cx : Crypto) : Nat → List Hash → List Hash
  | 0, hs => hs
  | k+1, hs => treeLevels cx k (hashPairs cx hs)

def treeDepth (count : Nat) : Nat := if count = 0 then 0 else Nat.log2 count

/-- `tree_hash` of a nonempty list. The last leaves are paired first, so that a
power of two is left. -/
def treeHash (cx : Crypto) (hashes : List Hash) : Hash :=
  match hashes with
  | [] => default
  | [h] => h
  | [l,r] => hashPair cx l r
  | _ =>
    let depth := Nat.log2 (hashes.length - 1)
    let direct := 2*2^depth - hashes.length
    let ints := hashes.take direct ++ hashPairs cx (hashes.drop direct)
    (treeLevels cx depth ints).headD default

/-- Bit `depth` of the path; bits past its end are zero. -/
def pathBit (path : Option Hash) (depth : Nat) : Bool :=
  match path with
  | none => false
  | some p =>
    match p.bytes[depth / 8]? with
    | none => false
    | some byte => byte.toNat.testBit (depth % 8)

def treeHashFromBranchLoop (cx : Crypto) (path : Option Hash) : List Hash → Nat → Hash → Hash
  | [], _, acc => acc
  | h :: rest, depth, acc =>
    treeHashFromBranchLoop cx path rest (depth-1)
      (if pathBit path depth then hashPair cx h acc else hashPair cx acc h)

def treeHashFromBranchWithPath (cx : Crypto) (branch : List Hash) (leaf : Hash)
    (path : Option Hash) : Hash :=
  treeHashFromBranchLoop cx path branch.reverse (branch.length-1) leaf

def treeHashFromBranch (cx : Crypto) (branch : List Hash) (leaf : Hash) : Hash :=
  treeHashFromBranchWithPath cx branch leaf none

/-- The little-endian word `i` of a hash. -/
def hashWord (h : Hash) (i : Nat) : Nat :=
  ((h.bytes.drop (8*i)).take 8).foldr (fun b acc => b.toNat + 256*acc) 0

/-- `check_hash`: the 256-bit value times the difficulty does not overflow. -/
def checkHash (h : Hash) (difficulty : Nat) : Bool :=
  let p3 := hashWord h 3 * difficulty
  if p3 / 2^64 ≠ 0 then false
  else
    let p0 := hashWord h 0 * difficulty
    let p1 := hashWord h 1 * difficulty
    let p2 := hashWord h 2 * difficulty
    let s1 := p1 % 2^64 + p0 / 2^64
    let s2 := p2 % 2^64 + p1 / 2^64 + s1 / 2^64
    let s3 := p3 + p2 / 2^64 + s2 / 2^64
    s3 / 2^64 = 0

def blockMajorVersion1 : Nat := 1
def blockMajorVersion2 : Nat := 2
def maxBlockMajorVersion : Nat := 7

structure ParentBlock where
  majorVersion : Nat
  minorVersion : Nat
  previousBlockHash : Hash
  transactionCount : Nat
  baseTransactionBranch : List Hash
  baseTransaction : BaseTransaction
  blockchainBranch : List Hash
  deriving DecidableEq, Repr

structure BlockTemplate where
  majorVersion : Nat
  minorVersion : Nat
  timestamp : Nat
  previousBlockHash : Hash
  nonce : Nat
  parentBlock : Option ParentBlock
  baseTransaction : Transaction
  transactionHashes : List Hash
  deriving DecidableEq, Repr

namespace ParentBlock

/-- The tag is kept next to the base transaction it is parsed from. -/
def mergeMiningTag (pb : ParentBlock) : Option MergeMiningTag :=
  (parseExtra pb.baseTransaction.body.extra).mergeMiningTag

def checkShape (pb : ParentBlock) (headerOnly : Bool) : Except Error PUnit := do
  refuseIf (pb.transactionCount < 1) (.malformed "parent numberOfTransactions")
  refuseIf (pb.baseTransactionBranch.length ≠ treeDepth pb.transactionCount)
    (.malformed "miner transaction branch size")
  if headerOnly then pure ⟨⟩
  else
    let tag ← orRefuse pb.mergeMiningTag (.malformed "merge mining tag missing")
    refuseIf (256 < tag.depth) (.malformed "merge mining tag depth")
    refuseIf (tag.depth ≠ pb.blockchainBranch.length) (.malformed "blockchain branch size != mm depth")

def write (cx : Crypto) (pb : ParentBlock) (blockTimestamp blockNonce : Nat)
    (hashing headerOnly : Bool) : Except Error Bytes := do
  pb.checkShape headerOnly
  let root := treeHashFromBranch cx pb.baseTransactionBranch (pb.baseTransaction.hash cx)
  let head := varint pb.majorVersion ++ varint pb.minorVersion ++
    varint blockTimestamp ++ pb.previousBlockHash.bytes ++ u32Le blockNonce ++
    (if hashing then root.bytes else []) ++ varint pb.transactionCount
  if headerOnly then pure head
  else pure (head ++ hashes pb.baseTransactionBranch ++ pb.baseTransaction.write ++
    hashes pb.blockchainBranch)

def read : Reader (ParentBlock × Nat × Nat) := do
  let majorVersion ← varintBits 8
  let minorVersion ← varintBits 8
  let timestamp ← varint
  let previousBlockHash ← hash
  let nonce ← u32Le
  let txNum ← varintBits 16
  if txNum < 1 then fail (.malformed "parent numberOfTransactions")
  else
    let branch ← repeatN hash (treeDepth txNum)
    let baseTransaction ← BaseTransaction.read
    match (parseExtra baseTransaction.body.extra).mergeMiningTag with
    | none => fail (.malformed "merge mining tag missing")
    | some tag =>
      if 256 < tag.depth then fail (.malformed "merge mining tag depth")
      else
        let blockchainBranch ← repeatN hash tag.depth
        pure (⟨majorVersion,minorVersion,previousBlockHash,txNum,branch,baseTransaction,
          blockchainBranch⟩,timestamp,nonce)

end ParentBlock

/-- `hash_as_object`: the bytes are hashed with their length in front. -/
def hashAsObject (cx : Crypto) (blob : Bytes) : Hash := cx.cnFastHash (bytes blob)

namespace BlockTemplate

def writeHeader (b : BlockTemplate) : Bytes :=
  varint b.majorVersion ++ varint b.minorVersion ++
    if b.majorVersion = blockMajorVersion1 then
      varint b.timestamp ++ b.previousBlockHash.bytes ++ u32Le b.nonce
    else b.previousBlockHash.bytes

def versionKnown (v : Nat) : Prop := v ≠ 0 ∧ v ≤ maxBlockMajorVersion

instance (v : Nat) : Decidable (versionKnown v) := inferInstanceAs (Decidable (_ ∧ _))

def toBytes (cx : Crypto) (b : BlockTemplate) : Except Error Bytes := do
  refuseIf (¬ versionKnown b.majorVersion) (.malformed "block major version")
  let parent ←
    if blockMajorVersion2 ≤ b.majorVersion then do
      let pb ← orRefuse b.parentBlock (.malformed "parent block missing")
      pb.write cx b.timestamp b.nonce false false
    else pure []
  let coinbase ← b.baseTransaction.toBytes
  pure (b.writeHeader ++ parent ++ coinbase ++ varint b.transactionHashes.length ++
    hashes b.transactionHashes)

def read : Reader BlockTemplate := do
  let majorVersion ← varintBits 8
  if ¬ versionKnown majorVersion then fail (.malformed "block major version")
  else
    let minorVersion ← varintBits 8
    let (timestamp,previousBlockHash,nonce,parentBlock) ← (do
      if majorVersion = blockMajorVersion1 then
        let ts ← varint
        let prev ← hash
        let nonce ← u32Le
        pure (ts,prev,nonce,none)
      else
        let prev ← hash
        let (pb,ts,nonce) ← ParentBlock.read
        pure (ts,prev,nonce,some pb) : Reader (Nat × Hash × Nat × Option ParentBlock))
    let baseTransaction ← Transaction.read
    let n ← count 32
    let transactionHashes ← repeatN hash n
    pure ⟨majorVersion,minorVersion,timestamp,previousBlockHash,nonce,parentBlock,
      baseTransaction,transactionHashes⟩

def fromBytes (data : Bytes) : Except Error BlockTemplate := finish read data

def allTransactionHashes (cx : Crypto) (b : BlockTemplate) : Except Error (List Hash) := do
  let coinbase ← b.baseTransaction.hash cx
  pure (coinbase :: b.transactionHashes)

def headerHashingBlob (cx : Crypto) (b : BlockTemplate) : Except Error Bytes := do
  let hashes ← b.allTransactionHashes cx
  pure (b.writeHeader ++ (treeHash cx hashes).bytes ++
    Writer.varint (b.transactionHashes.length+1))

def parentHashingBlob (cx : Crypto) (b : BlockTemplate) (headerOnly : Bool) :
    Except Error Bytes := do
  let pb ← orRefuse b.parentBlock (.malformed "parent block missing")
  pb.write cx b.timestamp b.nonce true headerOnly

def auxiliaryHeaderHash (cx : Crypto) (b : BlockTemplate) : Except Error Hash := do
  let blob ← b.headerHashingBlob cx
  pure (hashAsObject cx blob)

def hash (cx : Crypto) (b : BlockTemplate) : Except Error Hash := do
  let header ← b.headerHashingBlob cx
  let parent ←
    if blockMajorVersion2 ≤ b.majorVersion then b.parentHashingBlob cx false else pure []
  pure (hashAsObject cx (header ++ parent))

def powInput (cx : Crypto) (b : BlockTemplate) : Except Error Bytes :=
  if b.majorVersion = blockMajorVersion1 then b.headerHashingBlob cx
  else b.parentHashingBlob cx true

def powHash (cx : Crypto) (b : BlockTemplate) : Except Error Hash := do
  let input ← b.powInput cx
  refuseIf (¬ versionKnown b.majorVersion) (.malformed "no PoW for this block version")
  pure (cx.slowHash b.majorVersion input)

def coinbaseOutputTotal (b : BlockTemplate) : Option Nat := b.baseTransaction.body.sumOutputs

def coinbaseHeight (b : BlockTemplate) : Option Nat :=
  match b.baseTransaction.body.inputs with
  | [.base blockIndex] => some blockIndex
  | _ => none

end BlockTemplate

def genesisBlock : Except Error BlockTemplate := do
  let baseTransaction ← Transaction.fromBytes genesisCoinbaseTx
  pure ⟨blockMajorVersion1,0,0,ByteVec.zero 32,genesisNonce,none,baseTransaction,[]⟩

def genesisBlockHash (cx : Crypto) : Except Error Hash := do
  let b ← genesisBlock
  b.hash cx

namespace BlockTemplate

def checkProofOfWorkWith (cx : Crypto) (b : BlockTemplate) (powHash : Hash) (difficulty : Nat) :
    Except Error Bool :=
  if checkHash powHash difficulty = false then .ok false
  else if b.majorVersion = blockMajorVersion1 then .ok true
  else do
    let pb ← orRefuse b.parentBlock (.malformed "parent block missing")
    match pb.mergeMiningTag with
    | none => pure false
    | some tag =>
      if 256 < pb.blockchainBranch.length then pure false
      else do
        let aux ← b.auxiliaryHeaderHash cx
        let genesis ← genesisBlockHash cx
        let root := treeHashFromBranchWithPath cx pb.blockchainBranch aux (some genesis)
        pure (decide (root = tag.merkleRoot))

def checkProofOfWork (cx : Crypto) (b : BlockTemplate) (difficulty : Nat) : Except Error Bool := do
  let h ← b.powHash cx
  b.checkProofOfWorkWith cx h difficulty

end BlockTemplate

structure RawBlock where
  block : Bytes
  transactions : List Bytes
  deriving DecidableEq, Repr

end Wrkz
