import Wrkz.Chain.Genesis

/-!
Small blocks to run the model on. The hash mixes every byte into 256 bits, so
the ids of different sample blocks differ; whether they do is decidable for any
list of blocks.
-/

set_option autoImplicit false

namespace Wrkz

open Library

def littleEndian (n : Nat) : Nat → Bytes
  | 0 => []
  | k+1 => UInt8.ofNat (n % 256) :: littleEndian (n / 256) k

theorem littleEndian_length (n k : Nat) : (littleEndian n k).length = k := by
  induction k generalizing n with
  | zero => rfl
  | succ k ih => simp [littleEndian, ih]

def mixHash (b : Bytes) : Hash :=
  ⟨littleEndian (b.foldl (fun acc x => (acc*257 + x.toNat + 1) % 2^256) 7) 32,
    littleEndian_length _ _⟩

def sampleCrypto : Crypto where
  cnFastHash := mixHash
  slowHash _ _ := ByteVec.zero 32
  cnUpx := mixHash
  checkKey _ := true
  keyImageInDomain _ := true
  checkRingSignature _ _ _ _ := true

def sampleCoinbase (index amount : Nat) : Transaction :=
  ⟨⟨1,index + cryptonoteMinedMoneyUnlockWindow,[.base index],[⟨amount,mixHash [1]⟩],[]⟩,[]⟩

/-- A parent block whose merge mining tag names `root`. -/
def sampleParent (root : Hash) : ParentBlock :=
  ⟨0,0,ByteVec.zero 32,1,[],⟨⟨1,0,[.base 0],[],[3,33,0] ++ root.bytes⟩⟩,[]⟩

/-- The block at `index` with the given transactions, mined under a parent block
from version 2 on. -/
def sampleBlock (index timestamp amount : Nat) (previous : Hash) (hashes : List Hash) :
    BlockTemplate :=
  let version := blockMajorVersionForIndex index
  let block : BlockTemplate :=
    ⟨version,0,timestamp,previous,0,none,sampleCoinbase index amount,hashes⟩
  if version = blockMajorVersion1 then block
  else
    match block.auxiliaryHeaderHash sampleCrypto with
    | .ok root => { block with parentBlock := some (sampleParent root) }
    | .error _ => block

def sampleBlob (tx : Transaction) : Bytes :=
  match tx.toBytes with
  | .ok blob => blob
  | .error _ => []

def sampleSpend (amount globalIndex fee : Nat) (image : Hash) : Transaction :=
  ⟨⟨1,0,[.key amount [globalIndex] image],[⟨amount - fee,mixHash [2]⟩],[]⟩,[[ByteVec.zero 64]]⟩

def sampleTxId (tx : Transaction) : Hash := mixHash (sampleBlob tx)

def sampleRaw (b : BlockTemplate) (txs : List Transaction) : RawBlock :=
  match b.toBytes sampleCrypto with
  | .ok blob => ⟨blob,txs.map sampleBlob⟩
  | .error _ => ⟨[],[]⟩

def sampleId (b : BlockTemplate) : Hash :=
  match b.hash sampleCrypto with
  | .ok h => h
  | .error _ => ByteVec.zero 32

def sampleGenesisId : Hash :=
  match genesisBlockHash sampleCrypto with
  | .ok h => h
  | .error _ => ByteVec.zero 32

def defaultConfig : Config := {}

def sampleNode (cfg : Config) (checkpoints : Checkpoints) (clock : Nat) : ChainState :=
  finalState (ChainState.openOrGenesis sampleCrypto cfg checkpoints clock)

theorem sampleNode_open (cfg : Config) (checkpoints : Checkpoints) (clock : Nat) :
    ChainState.openOrGenesis sampleCrypto cfg checkpoints clock =
      .ok ⟨⟩ (sampleNode cfg checkpoints clock) := by
  have haccepted : (ChainState.genesisAccepted sampleCrypto).isOk = true := by decide +kernel
  cases hacc : ChainState.genesisAccepted sampleCrypto with
  | error e =>
    rw [hacc] at haccepted
    cases haccepted
  | ok r =>
    obtain ⟨g,_,hrun⟩ := openOrGenesis_of_accepted cfg checkpoints clock hacc
    unfold sampleNode
    rw [hrun]
    rfl

def sampleGenesisCoins : Nat :=
  match genesisBlock with
  | .ok g => g.coinbaseOutputTotal.getD 0
  | .error _ => 0

def sampleReward (coins : Nat) : Nat := (moneySupply - coins) >>> emissionSpeedFactor

/-- Blocks one on top of the other, each with a timestamp, transactions and the sum
of their fees. -/
def sampleBranch (index coins : Nat) (previous : Hash) :
    List (Nat × List Transaction × Nat) → List (BlockTemplate × List Transaction)
  | [] => []
  | (timestamp,txs,fees) :: rest =>
    let reward := sampleReward coins
    let block := sampleBlock index timestamp (reward + fees) previous (txs.map sampleTxId)
    (block,txs) :: sampleBranch (index+1) (coins + reward) (sampleId block) rest

def sampleChain (entries : List (Nat × List Transaction × Nat)) :
    List (BlockTemplate × List Transaction) :=
  sampleBranch 1 sampleGenesisCoins sampleGenesisId entries

def sampleOffers (now : Nat) (blocks : List (BlockTemplate × List Transaction)) :
    List (Nat × RawBlock) :=
  blocks.map fun b => (now,sampleRaw b.1 b.2)

def genesisRaws (cx : Crypto) : List RawBlock :=
  match genesisBlock with
  | .error _ => []
  | .ok g =>
    match g.toBytes cx with
    | .error _ => []
    | .ok blob => [⟨blob,[]⟩]

theorem mem_genesisRaws {cx : Crypto} {raw : RawBlock} :
    raw ∈ genesisRaws cx ↔ ∃ g, genesisBlock = .ok g ∧ g.toBytes cx = .ok raw.block ∧
      raw.transactions = [] := by
  unfold genesisRaws
  cases genesisBlock with
  | error e => simp
  | ok g =>
    simp only [Except.ok.injEq, exists_eq_left']
    cases g.toBytes cx with
    | error e => simp
    | ok blob =>
      obtain ⟨block,transactions⟩ := raw
      simp [eq_comm]

def templateList (cx : Crypto) (raws : List RawBlock) : List BlockTemplate :=
  (genesisRaws cx ++ raws).filterMap fun raw =>
    match BlockTemplate.fromBytes raw.block with
    | .ok t => some t
    | .error _ => none

theorem mem_templateList {cx : Crypto} {raws : List RawBlock} {t : BlockTemplate} :
    t ∈ templateList cx raws ↔ t ∈ templatesOf (blocksOf cx raws) := by
  unfold templateList templatesOf
  rw [Set.mem_ofPred_eq, List.mem_filterMap]
  refine exists_congr fun raw => and_congr ?_ ?_
  · rw [List.mem_append, mem_genesisRaws, or_comm]
    rfl
  · cases BlockTemplate.fromBytes raw.block with
    | error e => simp
    | ok g => simp

/-- Whether results tell the members of a list apart. -/
theorem distinct_iff {α : Type} {f : α → Except Error Hash} {A : Set α} {l : List α}
    (hl : ∀ {t}, t ∈ A ↔ t ∈ l) :
    (∀ t ∈ A, ∀ u ∈ A, ∀ h, f t = .ok h → f u = .ok h → t = u) ↔
      ∀ t ∈ l, ∀ u ∈ l, f t = f u → t = u ∨ (f t).toOption = none := by
  constructor
  · intro h t ht u hu heq
    cases hh : f t with
    | error e => exact .inr rfl
    | ok x => exact .inl (h t (hl.2 ht) u (hl.2 hu) x hh (heq.symm.trans hh))
  · intro h t ht u hu x htx hux
    rcases h t (hl.1 ht) u (hl.1 hu) (htx.trans hux.symm) with heq | hn
    · exact heq
    · rw [htx] at hn
      cases hn

theorem uniqueIds_iff (cx : Crypto) (raws : List RawBlock) :
    UniqueIds cx (blocksOf cx raws) ↔ ∀ t ∈ templateList cx raws, ∀ u ∈ templateList cx raws,
      t.hash cx = u.hash cx → t = u ∨ (t.hash cx).toOption = none :=
  distinct_iff mem_templateList.symm

instance (cx : Crypto) (raws : List RawBlock) : Decidable (UniqueIds cx (blocksOf cx raws)) :=
  decidable_of_iff _ (uniqueIds_iff cx raws).symm

end Wrkz
