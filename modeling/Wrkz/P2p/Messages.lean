import Wrkz.Primitives.Encoding
import Wrkz.Primitives.Kv

/-!
The messages that carry lists of hashes: the request for a peer's pool, the request
for its chain and the answer to that, with the caps a frame and a list are held to.
-/

set_option autoImplicit false

namespace Wrkz

open Library

inductive Command where
  | handshake
  | timedSync
  | ping
  | notifyNewBlock
  | notifyNewTransactions
  | notifyRequestGetObjects
  | notifyResponseGetObjects
  | notifyRequestChain
  | notifyResponseChainEntry
  | notifyRequestTxPool
  | notifyNewLiteBlock
  | notifyMissingTxs
  | unknown (id : Nat)
  deriving DecidableEq, Repr

def maxPeerlistEntries : Nat := 250
def maxHashes : Nat := 10000
def kvMargin : Nat := 4*1024
def peerlistEntry6Stride : Nat := 40
def defaultMaxPayload : Nat := 50*1024*1024

def maxInboundPayload (command : Command) : Nat :=
  let cap := match command with
    | .handshake | .timedSync => 64*1024 + 2*(maxPeerlistEntries*peerlistEntry6Stride)
    | .ping => 4*1024
    | .notifyRequestChain | .notifyResponseChainEntry | .notifyRequestTxPool
    | .notifyMissingTxs => maxHashes*32 + kvMargin
    | .notifyRequestGetObjects => 2*(maxHashes*32) + kvMargin
    | .notifyNewBlock | .notifyNewLiteBlock => 8*1024*1024
    | .notifyNewTransactions => 32*1024*1024
    | .notifyResponseGetObjects => defaultMaxPayload
    | .unknown _ => 64*1024
  min cap defaultMaxPayload

def blobCount (blob : Bytes) (stride max : Nat) (what : String) : Except Error Nat := do
  refuseIf (blob.length % stride ≠ 0) (Error.malformed what)
  let n := blob.length / stride
  refuseIf (max < n) (Error.malformed what)
  pure n

def hashesBlob (hashes : List Hash) : Bytes := hashes.flatMap ByteVec.bytes

def chunks : Nat → Bytes → List Hash
  | 0, _ => []
  | n+1, b =>
    match ByteVec.ofBytes? 32 b with
    | none => []
    | some h => h :: chunks n (b.drop 32)

def blobHashes (blob : Bytes) (what : String) : Except Error (List Hash) := do
  let n ← blobCount blob 32 maxHashes what
  pure (chunks n blob)

def requestTxPool (hashes : List Hash) : Bytes :=
  Kv.encode (Kv.Section.string [] (Kv.name "txs") (hashesBlob hashes))

def parseRequestTxPool (payload : Bytes) : Except Error (List Hash) := do
  let s ← Kv.decode payload
  blobHashes ((s.getBytes (Kv.name "txs")).getD []) "txs"

def requestChain (blockIds : List Hash) : Bytes :=
  Kv.encode (Kv.Section.string [] (Kv.name "block_ids") (hashesBlob blockIds))

def parseRequestChain (payload : Bytes) : Except Error (List Hash) := do
  let s ← Kv.decode payload
  let ids ← blobHashes ((s.getBytes (Kv.name "block_ids")).getD []) "block_ids"
  refuseIf (ids = []) (Error.malformed "block_ids empty")
  pure ids

structure ChainEntry where
  startHeight : Nat
  totalHeight : Nat
  blockIds : List Hash
  deriving DecidableEq, Repr

def chainEntry (startHeight totalHeight : Nat) (blockIds : List Hash) : Bytes :=
  let s := Kv.Section.u32 [] (Kv.name "start_height") startHeight
  let s := s.u32 (Kv.name "total_height") totalHeight
  Kv.encode (s.string (Kv.name "m_block_ids") (hashesBlob blockIds))

/-- Heights are cut to a `u32`. -/
def parseChainEntry (payload : Bytes) : Except Error ChainEntry := do
  let s ← Kv.decode payload
  let blockIds ← blobHashes ((s.getBytes (Kv.name "m_block_ids")).getD []) "m_block_ids"
  refuseIf (blockIds = []) (Error.malformed "m_block_ids empty")
  let startHeight ← orRefuse (s.getU64 (Kv.name "start_height")) (Error.malformed "start_height")
  let totalHeight ← orRefuse (s.getU64 (Kv.name "total_height")) (Error.malformed "total_height")
  pure ⟨startHeight % 2^32,totalHeight % 2^32,blockIds⟩

theorem hashesBlob_length (hashes : List Hash) : (hashesBlob hashes).length = 32*hashes.length := by
  induction hashes with
  | nil => rfl
  | cons h hashes ih =>
    unfold hashesBlob at ih ⊢
    rw [List.flatMap_cons, List.length_append, ih, h.length_eq, List.length_cons]
    omega

theorem chunks_hashesBlob (hashes : List Hash) :
    chunks hashes.length (hashesBlob hashes) = hashes := by
  induction hashes with
  | nil => rfl
  | cons h hashes ih =>
    have hblob : hashesBlob (h :: hashes) = h.bytes ++ hashesBlob hashes := rfl
    have htake : (h.bytes ++ hashesBlob hashes).take 32 = h.bytes := List.take_left' h.length_eq
    have hfirst : ByteVec.ofBytes? 32 (h.bytes ++ hashesBlob hashes) = some h := by
      unfold ByteVec.ofBytes?
      rw [dif_pos (by rw [htake, h.length_eq])]
      exact congrArg some (ByteVec.ext htake)
    rw [hblob, List.length_cons, chunks, hfirst]
    simp only [List.drop_left' h.length_eq, ih]

theorem blobHashes_hashesBlob (hashes : List Hash) (what : String) :
    blobHashes (hashesBlob hashes) what =
      if hashes.length ≤ maxHashes then .ok hashes else .error (.malformed what) := by
  have hcount : (hashesBlob hashes).length / 32 = hashes.length := by
    rw [hashesBlob_length]
    omega
  have hmod : ¬ (hashesBlob hashes).length % 32 ≠ 0 := by
    rw [hashesBlob_length]
    omega
  unfold blobHashes blobCount refuseIf
  rw [if_neg hmod, hcount]
  dsimp only
  by_cases hle : hashes.length ≤ maxHashes
  · rw [if_pos hle, if_neg (Nat.not_lt.2 hle)]
    exact congrArg Except.ok (chunks_hashesBlob hashes)
  · rw [if_neg hle, if_pos (Nat.lt_of_not_le hle)]
    rfl

theorem decode_string {key : Bytes} (hkey : Kv.NameOk key) {v : Bytes} (hv : v.length < 2^62) :
    Kv.decode (Kv.encode (Kv.Section.string [] key v)) = .ok (Kv.Section.string [] key v) := by
  refine Kv.decode_encode ⟨?_,?_⟩
  · intro e he
    unfold Kv.Section.string at he
    split at he
    · cases he
    · cases List.mem_singleton.1 he
      exact ⟨hkey,hv⟩
  · unfold Kv.Section.string
    split <;> simp [Kv.maxValues]

theorem getBytes_string (key v : Bytes) :
    ((Kv.Section.string [] key v).getBytes key).getD [] = v := by
  unfold Kv.Section.string
  split
  · next h => rw [h]; rfl
  · simp [Kv.Section.getBytes, Kv.Section.get]

theorem parseRequestTxPool_requestTxPool {hashes : List Hash} (h : 32*hashes.length < 2^62) :
    parseRequestTxPool (requestTxPool hashes) =
      if hashes.length ≤ maxHashes then .ok hashes else .error (.malformed "txs") := by
  have hname : Kv.NameOk (Kv.name "txs") := ⟨by decide,by decide,by decide +kernel⟩
  have hdecode := decode_string hname (v := hashesBlob hashes) (by rw [hashesBlob_length]; exact h)
  unfold parseRequestTxPool requestTxPool
  rw [hdecode]
  change blobHashes ((Kv.Section.getBytes _ _).getD []) "txs" = _
  rw [getBytes_string, blobHashes_hashesBlob]

variable {ids : List Hash} (hne : ids ≠ []) (h : ids.length ≤ maxHashes)
include hne h

theorem parseRequestChain_requestChain : parseRequestChain (requestChain ids) = .ok ids := by
  have hname : Kv.NameOk (Kv.name "block_ids") := ⟨by decide,by decide,by decide +kernel⟩
  have hsmall : (hashesBlob ids).length < 2^62 := by
    have hmax : maxHashes = 10000 := rfl
    rw [hashesBlob_length]
    omega
  have hdecode := decode_string hname hsmall
  unfold parseRequestChain requestChain
  rw [hdecode]
  change (blobHashes ((Kv.Section.getBytes _ _).getD []) "block_ids" >>= _) = _
  rw [getBytes_string, blobHashes_hashesBlob, if_pos h]
  change (refuseIf (ids = []) _ >>= _) = _
  rw [refuseIf, if_neg hne]
  rfl

theorem parseChainEntry_chainEntry {start total : Nat} (hstart : start < 2^32) (htotal : total < 2^32) :
    parseChainEntry (chainEntry start total ids) = .ok ⟨start,total,ids⟩ := by
  have hlen : (hashesBlob ids).length < 2^62 := by
    have hmax : maxHashes = 10000 := rfl
    rw [hashesBlob_length]
    omega
  have hblob : hashesBlob ids ≠ [] := by
    intro hnil
    have hzero := hashesBlob_length ids
    rw [hnil] at hzero
    exact hne (List.length_eq_zero_iff.1 (by simpa using hzero.symm))
  have hdecode : Kv.decode (Kv.encode [(Kv.name "start_height",.uint start Kv.typeUint32),
      (Kv.name "total_height",.uint total Kv.typeUint32),
      (Kv.name "m_block_ids",.string (hashesBlob ids))]) =
      .ok [(Kv.name "start_height",.uint start Kv.typeUint32),
      (Kv.name "total_height",.uint total Kv.typeUint32),
      (Kv.name "m_block_ids",.string (hashesBlob ids))] := by
    have hs : Kv.NameOk (Kv.name "start_height") := ⟨by decide,by decide,by decide +kernel⟩
    have ht : Kv.NameOk (Kv.name "total_height") := ⟨by decide,by decide,by decide +kernel⟩
    have hi : Kv.NameOk (Kv.name "m_block_ids") := ⟨by decide,by decide,by decide +kernel⟩
    have hwidth : (256 : Nat)^Kv.intWidth Kv.typeUint32 = 2^32 := by decide
    refine Kv.decode_encode ⟨?_,(by decide : 3 ≤ Kv.maxValues)⟩
    intro e he
    simp only [List.mem_cons, List.not_mem_nil, or_false] at he
    rcases he with rfl | rfl | rfl
    · exact ⟨hs,by simp,by rw [hwidth]; exact hstart⟩
    · exact ⟨ht,by simp,by rw [hwidth]; exact htotal⟩
    · exact ⟨hi,hlen⟩
  unfold parseChainEntry chainEntry Kv.Section.string
  dsimp only
  rw [if_neg hblob]
  unfold Kv.Section.u32
  simp only [List.nil_append, List.cons_append]
  rw [hdecode]
  change (blobHashes (hashesBlob ids) "m_block_ids" >>= _) = _
  rw [blobHashes_hashesBlob, if_pos h]
  change (refuseIf (ids = []) _ >>= _) = _
  rw [refuseIf, if_neg hne]
  change Except.ok (ChainEntry.mk (start % 2^32) (total % 2^32) ids) = _
  rw [Nat.mod_eq_of_lt hstart, Nat.mod_eq_of_lt htotal]

end Wrkz
