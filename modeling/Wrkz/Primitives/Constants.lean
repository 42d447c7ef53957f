import Wrkz.Primitives.Serial

/-!
The consensus constants and the rules that are functions of a height or of a
block version.
-/

set_option autoImplicit false

namespace Wrkz

/-- `GENESIS_COINBASE_TX_HEX`, decoded. -/
def genesisCoinbaseTx : Bytes :=
  [0x01,0x28,0x01,0xff,0x00,0x03,
   0x80,0x90,0xca,0xd2,0xc6,0x0e,0x02,
   0x48,0x4a,0xb5,0x63,0xa5,0xec,0x4c,0xb8,0xaa,0x15,0x9b,0x87,0x8e,0x4c,0xa0,0xa4,
   0x17,0xe7,0x25,0x8e,0xc4,0xfd,0x33,0x81,0x28,0x05,0x9f,0x2b,0x71,0x93,0xdc,0xaa,
   0x80,0x90,0xca,0xd2,0xc6,0x0e,0x02,
   0x65,0x5e,0xd6,0xab,0x14,0x0e,0xf3,0xca,0x45,0xd8,0xd9,0x13,0x12,0x5b,0x8b,0xc8,
   0x91,0x7c,0x59,0x0a,0xf4,0xd1,0xb9,0xd7,0xb4,0xa6,0x73,0x96,0xe4,0xa7,0x64,0x08,
   0x80,0x90,0xca,0xd2,0xc6,0x0e,0x02,
   0x0e,0x06,0xbf,0x15,0x87,0xf9,0x76,0x8c,0xfd,0x73,0x5a,0x95,0xe8,0x25,0x4e,0x98,
   0xc6,0x86,0x04,0xf6,0x90,0xe6,0x99,0xf8,0x40,0x30,0x58,0x42,0x2e,0xde,0x04,0x28,
   0x21,0x01,
   0xc4,0x7e,0xee,0x4c,0xfe,0xf6,0xf3,0x0b,0x53,0x68,0xd0,0x25,0x1a,0xd6,0x6a,0x58,
   0x00,0xe2,0xf0,0xb2,0xb7,0x0a,0x4a,0x30,0x34,0xc7,0xbb,0xa3,0xc5,0xd0,0xd6,0xe0]

def genesisNonce : Nat := 70
def simnetDifficulty : Nat := 1
def moneySupply : Nat := 50000000000000
def emissionSpeedFactor : Nat := 22
def fixedRewardV1 : Nat := 1000000
def fixedRewardV1Height : Nat := 1500000
def cryptonoteMinedMoneyUnlockWindow : Nat := 40
def cryptonoteRewardBlocksWindow : Nat := 100
def cryptonoteBlockGrantedFullRewardZone : Nat := 100000
def cryptonoteBlockGrantedFullRewardZoneV2 : Nat := 20000
def cryptonoteBlockGrantedFullRewardZoneV1 : Nat := 10000
def cryptonoteCoinbaseBlobReservedSize : Nat := 600

/-- `UPGRADE_HEIGHTS`, the newest first. -/
def upgradeHeights : List (Nat × Nat) :=
  [(7,1000000),(6,600000),(5,302400),(4,3),(3,2),(2,1)]

def blockMajorVersionForIndex (index : Nat) : Nat :=
  match upgradeHeights.find? (fun u => u.2 < index) with
  | some (version,_) => version
  | none => 1

def fullRewardZone (majorVersion : Nat) : Nat :=
  if 3 ≤ majorVersion then cryptonoteBlockGrantedFullRewardZone
  else if majorVersion = 2 then cryptonoteBlockGrantedFullRewardZoneV2
  else cryptonoteBlockGrantedFullRewardZoneV1

def difficultyTarget : Nat := 60
def zawyDifficultyDifficultyBlockVersion : Nat := 3
def lwma2DifficultyBlockIndex : Nat := 100000
def lwma2DifficultyBlockIndexV2 : Nat := 100000
def lwma2DifficultyBlockIndexV3 : Nat := 128800
def difficultyWindowV3 : Nat := 60
def difficultyBlocksCountV3 : Nat := 61
def cryptonoteBlockFutureTimeLimit : Nat := 7200
def cryptonoteBlockFutureTimeLimitV3 : Nat := 3*difficultyTarget
def cryptonoteBlockFutureTimeLimitV4 : Nat := 6*difficultyTarget
def blockchainTimestampCheckWindow : Nat := 60
def blockchainTimestampCheckWindowV3 : Nat := 11

def blockFutureTimeLimit (index : Nat) : Nat :=
  if lwma2DifficultyBlockIndexV3 ≤ index then cryptonoteBlockFutureTimeLimitV4
  else if lwma2DifficultyBlockIndex ≤ index then cryptonoteBlockFutureTimeLimitV3
  else cryptonoteBlockFutureTimeLimit

def timestampCheckWindow (index : Nat) : Nat :=
  if lwma2DifficultyBlockIndexV3 ≤ index then blockchainTimestampCheckWindowV3
  else blockchainTimestampCheckWindow

def difficultyWindow (majorVersion : Nat) : Nat :=
  if 3 ≤ majorVersion then 17 else 2880

def difficultyCut (majorVersion : Nat) : Nat :=
  if 3 ≤ majorVersion then 0 else 60

def difficultyLag (majorVersion : Nat) : Nat :=
  if 3 ≤ majorVersion then 0 else 15

def difficultyBlocksCount (majorVersion parentIndex : Nat) : Nat :=
  if lwma2DifficultyBlockIndex ≤ parentIndex then difficultyBlocksCountV3
  else difficultyWindow majorVersion + difficultyLag majorVersion

def cryptonoteMaxBlockNumber : Nat := 500000000
def maxBlockSizeInitial : Nat := 100000
def maxBlockSizeGrowthSpeedNumerator : Nat := 100*1024
def maxBlockSizeGrowthSpeedDenominator : Nat := 365*24*60*60 / difficultyTarget

def maxBlockCumulativeSize (height : Nat) : Nat :=
  maxBlockSizeInitial + height*maxBlockSizeGrowthSpeedNumerator / maxBlockSizeGrowthSpeedDenominator

def maxExtraSizeV2 : Nat := 1024
def maxExtraSizeV2Height : Nat := 543000
def blockBlobShuffleCheckHeight : Nat := 600000
def transactionSignatureCountValidationHeight : Nat := 543000
def transactionInputBlocktimeValidationHeight : Nat := 600000
def unlockTimeHeight : Nat := 1200000
def minimumUnlockTimeBlocks : Nat := 15
def cryptonoteLockedTxAllowedDeltaBlocks : Nat := 1
def cryptonoteLockedTxAllowedDeltaSeconds : Nat :=
  difficultyTarget*cryptonoteLockedTxAllowedDeltaBlocks
def maxOutputSizeNode : Nat := 12500000000000
def maxOutputSizeHeight : Nat := 800000
def normalTxMaxOutputCountV1 : Nat := 90
def normalTxMaxOutputCountV1Height : Nat := 777777
def fusionTxMaxSize : Nat := cryptonoteBlockGrantedFullRewardZone*30 / 100
def fusionTxMinInputCount : Nat := 12
def fusionTxMinInOutCountRatio : Nat := 4
def transactionPowHeight : Nat := 1123000
def transactionPowHeightDynV1 : Nat := 1200000
def transactionPowPassWithFeeHeight : Nat := 1500000
def transactionPowPassWithFee : Nat := 10000
def cryptonoteMaxAltBlockDepth : Nat := 180
def cryptonoteMaxAltChainCount : Nat := 50
def cryptonoteMaxAltBlockCount : Nat := 100

/-- `saturating_add` and `saturating_mul` of `u64`. -/
def saturate64 (n : Nat) : Nat := min n (2^64 - 1)

def transactionPowDifficulty (h : Nat) (isFusion : Bool) (inputs outputs : Nat) : Option Nat :=
  if h < transactionPowHeight then none
  else if h ≤ transactionPowHeightDynV1 then some (if isFusion then 60000 else 20000)
  else if isFusion then some 320000
  else some (saturate64 (40000 + saturate64 (saturate64 (inputs + saturate64 (outputs*4))*1000)))

def defaultDustThreshold (height : Nat) : Nat := if 302400 ≤ height then 0 else 10

def defaultFusionDustThreshold (height : Nat) : Nat := if 400000 ≤ height then 0 else 10

end Wrkz
