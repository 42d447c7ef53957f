import Wrkz.Chain.Verdict
import Wrkz.Primitives.Encoding

/-!
The coinbase of a template: the reward cut into its decimal digits, merged from the top
into few outputs, and paid to one-time keys.
-/

set_option autoImplicit false

namespace Wrkz

open Library

/-- What is out, held as dust and still to be cut is the amount, and a dust that is out
is not added to: the next digit alone would pass the threshold. -/
structure Cutting (threshold amount a order dust : Nat) (handled : Bool) (out : List Nat) : Prop where
  total : out.sum + (if handled then 0 else dust) + a*order = amount
  closed : a ≠ 0 → handled = true → threshold < dust + order

theorem cut_digit {a order : Nat} (h : a*order < 2 ^ 64) :
    a / 10*(order*10 % 2 ^ 64) + a % 10*order = a*order := by
  have hsplit : a / 10*(order*10) + a % 10*order = a*order := by
    have hdigits := Nat.div_add_mod a 10
    calc a / 10*(order*10) + a % 10*order = (10*(a / 10) + a % 10)*order := by ring
      _ = a*order := by rw [hdigits]
  by_cases hlast : a / 10 = 0
  · simpa [hlast] using hsplit
  · have hfits : order*10 < 2 ^ 64 := by
      have hpos : 1*(order*10) ≤ a / 10*(order*10) := Nat.mul_le_mul_right _ (by omega)
      omega
    rw [Nat.mod_eq_of_lt hfits, hsplit]

theorem next_order {a order : Nat} (h : a*order < 2 ^ 64) (hmore : a / 10 ≠ 0) :
    order*10 % 2 ^ 64 = order*10 := by
  have hpos : 10*order ≤ a*order := Nat.mul_le_mul_right _ (by omega)
  exact Nat.mod_eq_of_lt (by omega)

theorem emit_total {out : List Nat} {dust chunk left amount : Nat} {handled : Bool}
    (h : out.sum + (if handled then 0 else dust) + (left+chunk) = amount) :
    (if chunk ≠ 0 then (if handled = false ∧ dust ≠ 0 then out ++ [dust] else out) ++ [chunk]
      else if handled = false ∧ dust ≠ 0 then out ++ [dust] else out).sum +
      (if (handled || decide (handled = false ∧ dust ≠ 0)) = true then 0 else dust) + left =
      amount := by
  cases handled with
  | true =>
    by_cases hchunk : chunk = 0 <;> simp [hchunk] at h ⊢ <;> omega
  | false =>
    by_cases hdust : dust = 0 <;> by_cases hchunk : chunk = 0 <;> simp [hdust, hchunk] at h ⊢ <;>
      omega

namespace Cutting

variable {threshold amount a order dust : Nat} {handled : Bool} {out : List Nat}

theorem small (h : Cutting threshold amount a order dust handled out) (hamount : amount < 2 ^ 64) :
    a*order < 2 ^ 64 := by
  have htotal := h.total
  omega

theorem digit_eq_zero (h : Cutting threshold amount a order dust true out) (ha : a ≠ 0)
    (hkeep : dust + a % 10*order ≤ threshold) : a % 10*order = 0 := by
  have hclosed := h.closed ha rfl
  rcases Nat.eq_zero_or_pos (a % 10) with hz | hp
  · rw [hz, Nat.zero_mul]
  · have hdigit : 1*order ≤ a % 10*order := Nat.mul_le_mul_right _ hp
    omega

section

variable (h : Cutting threshold amount a order dust handled out) (hamount : amount < 2 ^ 64)
include h hamount

theorem keep (ha : a ≠ 0) (hkeep : dust + a % 10*order ≤ threshold) :
    Cutting threshold amount (a / 10) (order*10 % 2 ^ 64) (dust + a % 10*order) handled out := by
  have hsmall := h.small hamount
  have hdigit := cut_digit hsmall
  have htotal := h.total
  refine ⟨?_,fun hmore hhandled => ?_⟩
  · cases handled with
    | true =>
      have hzero := h.digit_eq_zero ha hkeep
      simp only [if_true] at htotal ⊢
      omega
    | false =>
      simp only [Bool.false_eq_true, if_false] at htotal ⊢
      omega
  · have hclosed := h.closed ha hhandled
    rw [next_order hsmall hmore]
    omega

theorem emit (hemit : ¬ dust + a % 10*order ≤ threshold) :
    Cutting threshold amount (a / 10) (order*10 % 2 ^ 64) dust
      (handled || decide (handled = false ∧ dust ≠ 0))
      (if a % 10*order ≠ 0 then
        (if handled = false ∧ dust ≠ 0 then out ++ [dust] else out) ++ [a % 10*order]
      else if handled = false ∧ dust ≠ 0 then out ++ [dust] else out) := by
  have hsmall := h.small hamount
  refine ⟨emit_total (by rw [cut_digit hsmall]; exact h.total),fun hmore _ => ?_⟩
  have hnine : a % 10*order ≤ 9*order := Nat.mul_le_mul_right _ (by omega)
  rw [next_order hsmall hmore]
  omega

end

theorem finish_sum (h : Cutting threshold amount 0 order dust handled out) :
    (if handled = false ∧ dust ≠ 0 then out ++ [dust] else out).sum = amount := by
  have htotal := h.total
  cases handled with
  | true => simpa using htotal
  | false => by_cases hdust : dust = 0 <;> simpa [hdust] using htotal

end Cutting

theorem decomposeLoop_sum {threshold amount : Nat} (hamount : amount < 2 ^ 64) {fuel : Nat} :
    ∀ {a order dust : Nat} {handled : Bool} {out : List Nat}, a < 10 ^ fuel →
      Cutting threshold amount a order dust handled out →
      (decomposeLoop threshold fuel a order dust handled out).sum = amount := by
  induction fuel with
  | zero =>
    intro a order dust handled out ha h
    obtain rfl : a = 0 := by simpa using ha
    exact h.finish_sum
  | succ fuel ih =>
    intro a order dust handled out ha h
    have hless : a / 10 < 10 ^ fuel := by
      rw [Nat.pow_succ] at ha
      omega
    unfold decomposeLoop
    by_cases ha0 : a = 0
    · rw [if_pos ha0]
      subst ha0
      exact h.finish_sum
    rw [if_neg ha0]
    dsimp only
    by_cases hkeep : dust + a % 10*order ≤ threshold
    · rw [if_pos hkeep]
      exact ih hless (h.keep hamount ha0 hkeep)
    · rw [if_neg hkeep]
      exact ih hless (h.emit hamount hkeep)

theorem decomposeAmount_sum {amount : Nat} (h : amount < 2 ^ 64) (threshold : Nat) :
    (decomposeAmount amount threshold).sum = amount :=
  decomposeLoop_sum h (by omega) ⟨by simp,by simp⟩

def mergeLast : List Nat → List Nat
  | [x,y] => [wrappingAdd x y]
  | x :: rest => x :: mergeLast rest
  | [] => []

/-- The `while` over the amounts; every round takes one off. -/
def mergeOuts (maxOuts : Nat) : Nat → List Nat → List Nat
  | 0, outAmounts => outAmounts
  | fuel+1, outAmounts =>
    if maxOuts < outAmounts.length then mergeOuts maxOuts fuel (mergeLast outAmounts) else outAmounts

theorem mergeLast_sum {amounts : List Nat} (h : amounts.sum < 2 ^ 64) :
    (mergeLast amounts).sum = amounts.sum := by
  fun_induction mergeLast amounts with
  | case1 x y =>
    simp only [List.sum_cons, List.sum_nil, Nat.add_zero] at h ⊢
    exact Nat.mod_eq_of_lt h
  | case2 x rest _ ih =>
    simp only [List.sum_cons] at h ⊢
    rw [ih (by omega)]
  | case3 => rfl

theorem mergeOuts_sum {maxOuts fuel : Nat} {amounts : List Nat} (h : amounts.sum < 2 ^ 64) :
    (mergeOuts maxOuts fuel amounts).sum = amounts.sum := by
  induction fuel generalizing amounts with
  | zero => rfl
  | succ fuel ih =>
    unfold mergeOuts
    split
    · rw [ih (by rw [mergeLast_sum h]; exact h), mergeLast_sum h]
    · rfl

theorem foldl_wrappingAdd (xs : List Nat) {start : Nat} (h : start < 2 ^ 64) :
    xs.foldl wrappingAdd start = (start + xs.sum) % 2 ^ 64 := by
  induction xs generalizing start with
  | nil => exact (Nat.mod_eq_of_lt h).symm
  | cons x xs ih =>
    have hstep : wrappingAdd start x < 2 ^ 64 := Nat.mod_lt _ (by norm_num)
    rw [List.foldl_cons, ih hstep, List.sum_cons, wrappingAdd, Nat.mod_add_mod, Nat.add_assoc]

inductive MinerTxError where
  | extraNonceTooLong (length : Nat)
  | blockTooBig (size limit : Nat)
  | maxOutsIsZero
  | badKeys
  | amountMismatch (summary reward : Nat)
  deriving DecidableEq, Repr

structure MinerTx where
  reward : Nat
  txPublicKey : Hash
  deriving DecidableEq, Repr

/-- The key arithmetic of a payment to a one-time key. -/
structure OneTimeKeys where
  /-- `generate_key_derivation(view public key, transaction secret key)`. -/
  generateKeyDerivation : Hash → Hash → Option Hash
  /-- `derive_public_key(derivation, output index, spend public key)`. -/
  derivePublicKey : Hash → Nat → Hash → Option Hash

def txExtraTagPubkey : UInt8 := 0x01
def txExtraNonce : UInt8 := 0x02
def txExtraTransactionPowNonce : UInt8 := 0x04
def txExtraNonceMaxCount : Nat := 255

def buildExtra (txPublicKey : Hash) (nonce : Option Bytes) (powNonce : Option (ByteVec 8)) :
    Except Error Bytes := do
  let nonceField ← match nonce with
    | none => .ok []
    | some n =>
      if txExtraNonceMaxCount < n.length then
        .error (.malformed "tx_extra nonce longer than 255 bytes")
      else .ok (txExtraNonce :: UInt8.ofNat n.length :: n)
  let powField := match powNonce with
    | none => []
    | some p => txExtraTransactionPowNonce :: p.bytes
  pure (txExtraTagPubkey :: txPublicKey.bytes ++ nonceField ++ powField)

def minerOutputs (keys : OneTimeKeys) (derivation publicSpendKey : Hash) :
    Nat → List Nat → Except MinerTxError (List Output)
  | _, [] => .ok []
  | index, amount :: rest => do
    let key ← orRefuse (keys.derivePublicKey derivation index publicSpendKey) .badKeys
    let outputs ← minerOutputs keys derivation publicSpendKey (index+1) rest
    pure (⟨amount,key⟩ :: outputs)

theorem minerOutputs_amounts {keys : OneTimeKeys} {derivation publicSpendKey : Hash}
    {amounts : List Nat} {index : Nat} {outputs : List Output}
    (h : minerOutputs keys derivation publicSpendKey index amounts = .ok outputs) :
    outputs.map Output.amount = amounts := by
  induction amounts generalizing index outputs with
  | nil =>
    cases h
    rfl
  | cons amount rest ih =>
    simp only [minerOutputs, bind_ok_iff, orRefuse_ok_iff] at h
    obtain ⟨key,_,tail,htail,heq⟩ := h
    cases heq
    rw [List.map_cons, ih htail]

def minerCoinbase (height : Nat) (outputs : List Output) (extra : Bytes) : Transaction :=
  ⟨⟨currentTransactionVersion,height + cryptonoteMinedMoneyUnlockWindow,[.base height],outputs,
    extra⟩,[]⟩

def constructMinerTx (keys : OneTimeKeys) (blockMajorVersion height medianSize alreadyGeneratedCoins
    currentBlockSize fee : Nat) (publicViewKey publicSpendKey : Hash) (extraNonce : Bytes)
    (maxOuts : Nat) (txKeys : Hash × Hash) : Except MinerTxError (Transaction × MinerTx) := do
  let nonce := if extraNonce = [] then none else some extraNonce
  refuseIf (txExtraNonceMaxCount < extraNonce.length) (.extraNonceTooLong extraNonce.length)
  let extra ← (buildExtra txKeys.2 nonce none).mapError fun _ =>
    .extraNonceTooLong ((nonce.map List.length).getD 0)
  let reward ← orRefuse
    (getBlockReward blockMajorVersion medianSize currentBlockSize alreadyGeneratedCoins fee height)
    (.blockTooBig currentBlockSize (2*max medianSize (fullRewardZone blockMajorVersion)))
  let outAmounts := decomposeAmount reward.reward (defaultDustThreshold height)
  refuseIf (maxOuts = 0) .maxOutsIsZero
  let outAmounts := mergeOuts maxOuts outAmounts.length outAmounts
  let derivation ← orRefuse (keys.generateKeyDerivation publicViewKey txKeys.1) .badKeys
  let outputs ← minerOutputs keys derivation publicSpendKey 0 outAmounts
  let summary := outAmounts.foldl wrappingAdd 0
  refuseIf (summary ≠ reward.reward) (.amountMismatch summary reward.reward)
  pure (minerCoinbase height outputs extra,⟨reward.reward,txKeys.2⟩)

/-- What stands in front of the nonce bytes of an extra: the key with its tag, the tag
and the length of the nonce. -/
def extraHead (txPublicKey : Hash) (length : Nat) : Bytes :=
  txExtraTagPubkey :: txPublicKey.bytes ++ [txExtraNonce,UInt8.ofNat length]

theorem getBlockReward_lt {version median size coins fee height : Nat} {r : Reward}
    (h : getBlockReward version median size coins fee height = some r) : r.reward < 2 ^ 64 := by
  unfold getBlockReward at h
  dsimp only at h
  split at h
  · cases h
  · cases h
    exact Nat.mod_lt _ (by norm_num)

/-- A coinbase pays the reward of the size it was built for, and its extra is the key and
the nonce. -/
structure PaysReward (version height median coins size fee : Nat) (nonce : Bytes) (key : Hash)
    (tx : Transaction) (miner : MinerTx) : Prop where
  body : ∃ outputs extra, tx = minerCoinbase height outputs extra
  reward : ∃ r, getBlockReward version median size coins fee height = some r ∧
    miner.reward = r.reward
  outputs : (tx.body.outputs.map Output.amount).sum = miner.reward
  extra : nonce ≠ [] → tx.body.extra = extraHead key nonce.length ++ nonce
  key : miner.txPublicKey = key

theorem constructMinerTx_pays {keys : OneTimeKeys} {version height median coins size fee maxOuts : Nat}
    {view spend : Hash} {nonce : Bytes} {txKeys : Hash × Hash} {tx : Transaction} {miner : MinerTx}
    (h : constructMinerTx keys version height median coins size fee view spend nonce maxOuts txKeys =
      .ok (tx,miner)) :
    PaysReward version height median coins size fee nonce txKeys.2 tx miner := by
  unfold constructMinerTx at h
  simp only [bind_ok_iff, refuseIf_ok_iff, orRefuse_ok_iff, mapError_ok_iff] at h
  obtain ⟨_,hlen,extra,hextra,r,hreward,_,_,derivation,_,outputs,houtputs,_,_,heq⟩ := h
  cases heq
  have hlt := getBlockReward_lt hreward
  have hsum := decomposeAmount_sum hlt (defaultDustThreshold height)
  refine ⟨⟨outputs,extra,rfl⟩,⟨r,hreward,rfl⟩,?_,fun hne => ?_,rfl⟩
  · change (outputs.map Output.amount).sum = r.reward
    rw [minerOutputs_amounts houtputs, mergeOuts_sum (by omega), hsum]
  · rw [if_neg hne] at hextra
    unfold buildExtra at hextra
    simp only [if_neg hlen] at hextra
    cases hextra
    simp [extraHead, minerCoinbase]

theorem minerCoinbase_encodable {height : Nat} {outputs : List Output} {extra : Bytes}
    (hheight : height < 2 ^ 32) (hsum : (outputs.map Output.amount).sum < 2 ^ 64)
    (houts : outputs.length < 2 ^ 64) (hextra : extra.length < 2 ^ 64) :
    (minerCoinbase height outputs extra).body.Encodable := by
  have hunlock : height + cryptonoteMinedMoneyUnlockWindow < 2 ^ 64 := by
    unfold cryptonoteMinedMoneyUnlockWindow
    omega
  refine ⟨⟨by simp [minerCoinbase, currentTransactionVersion],hunlock,?_,fun o ho => ?_⟩,
    ⟨by simp [minerCoinbase],?_,houts,hextra⟩⟩
  · simpa [minerCoinbase, Input.WellFormed] using hheight
  · have hle := List.single_le_sum (by simp) o.amount (List.mem_map_of_mem ho)
    exact lt_of_le_of_lt hle hsum
  · simp [minerCoinbase, Input.Counted]

end Wrkz
