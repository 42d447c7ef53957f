import Wrkz.Chain.Finality
import Wrkz.Chain.TxVerdict

/-!
Taking a block off again. The records of infos, outputs and payment ids are those
of the chain below; a key image or a transaction that an older block had already
recorded is lost with the newer block, which inside the checkpoint zone nothing
rules out.
-/

set_option autoImplicit false

namespace Wrkz

open Library ChainState

/-- Infos, ids, outputs with their counters, key images, transactions and payment
ids. -/
def Key.isLedger : Key → Bool
  | .blockInfo _ => true
  | .hashToIndex _ => true
  | .output _ _ => true
  | .outputCount _ => true
  | .keyImage _ => true
  | .transactionIndex _ => true
  | .paymentId _ => true
  | .paymentIdEntry _ _ => true
  | .paymentIdCount _ => true
  | .blockPaymentIds _ => true
  | _ => false

def SameRecords (s t : ChainState) : Prop :=
  ∀ key, key.isLedger = true → t.store key = s.store key

def ChainState.spendsNothingHeld (s : ChainState) (cx : Crypto) (raw : RawBlock) : Bool :=
  match BlockTemplate.fromBytes raw.block with
  | .error _ => false
  | .ok block =>
    match parseTransactions block raw.transactions,block.baseTransaction.hash cx with
    | .ok transactions,.ok coinbaseHash =>
      transactions.all (fun tx => tx.body.keyImages.all fun k => (s.store (.keyImage k)).isNone) &&
        (coinbaseHash :: block.transactionHashes).all fun h =>
          (s.store (.transactionIndex h)).isNone
    | _,_ => false

section

variable {cx : Crypto} {U : Set RawBlock} {I : ChainState → MainChain cx → Prop}
  {s t u : ChainState} {chain p : MainChain cx} {b : MainBlock cx} {raw : RawBlock}

/-- All but the spends is determined by the chain held. -/
theorem HoldsTables.sameRecords_iff (hs : HoldsTables s p) (ht : HoldsTables t p) :
    SameRecords s t ↔ (∀ k, t.store (.keyImage k) = s.store (.keyImage k)) ∧
      ∀ h, t.store (.transactionIndex h) = s.store (.transactionIndex h) := by
  constructor
  · intro h
    exact ⟨fun k => h _ rfl,fun x => h _ rfl⟩
  · intro h key hkey
    cases key with
    | blockInfo i => rw [hs.infos, ht.infos]
    | hashToIndex x =>
      refine Option.ext fun i => ?_
      rw [hs.hashes, ht.hashes]
    | output a n => exact (ht.outputs.entry_eq a n).trans (hs.outputs.entry_eq a n).symm
    | outputCount a => exact (ht.outputs.count_eq a).trans (hs.outputs.count_eq a).symm
    | keyImage k => exact h.1 k
    | transactionIndex x => exact h.2 x
    | paymentId id => rw [hs.legacy, ht.legacy]
    | paymentIdEntry id n => exact (ht.payments.entry_eq id n).trans (hs.payments.entry_eq id n).symm
    | paymentIdCount id => exact (ht.payments.count_eq id).trans (hs.payments.count_eq id).symm
    | blockPaymentIds i => rw [hs.blockPaymentIds, ht.blockPaymentIds]
    | metaVersion | metaTip | metaLiteHeight | metaPruneDepth | metaNetwork => cases hkey
    | blockTxHashes i | blockKeyImages i | blockOutputs i | rawBlock i => cases hkey

theorem MainBlock.spendsNothingHeld_iff (hraw : b.raw = raw)
    (himages : b.images = (b.transactions.flatMap fun tx => tx.body.keyImages).reverse) :
    s.spendsNothingHeld cx raw = true ↔ (∀ k ∈ b.images, s.store (.keyImage k) = none) ∧
      ∀ h ∈ b.txHashes, s.store (.transactionIndex h) = none := by
  subst hraw
  unfold spendsNothingHeld
  simp only [b.parsed, b.transactionsParsed, b.coinbaseHashed, himages, MainBlock.txHashes,
    Bool.and_eq_true, List.all_eq_true, Option.isNone_iff_eq_none, List.mem_reverse,
    List.mem_flatMap]
  constructor
  · intro h
    refine ⟨?_,h.2⟩
    intro k hk
    obtain ⟨tx,htx,hk⟩ := hk
    exact h.1 tx htx k hk
  · intro h
    exact ⟨fun tx htx k hk => h.1 k ⟨tx,htx,hk⟩,h.2⟩

theorem TakenOff.sameRecords_iff (hs : HoldsChain s p) (hstore : t.store = (s.afterPush p b).store)
    (hoff : TakenOff t u p [b]) :
    SameRecords s u ↔ (∀ k ∈ b.images, s.store (.keyImage k) = none) ∧
      ∀ h ∈ b.txHashes, s.store (.transactionIndex h) = none := by
  have himage : ∀ k, u.store (.keyImage k) =
      if k ∈ b.images then none else s.store (.keyImage k) := by
    intro k
    rw [hoff.keyImage, hstore, s.afterPush_keyImage]
    by_cases hk : k ∈ b.images <;> simp [hk]
  have htransaction : ∀ h, u.store (.transactionIndex h) =
      if h ∈ b.txHashes then none else s.store (.transactionIndex h) := by
    intro h
    rw [hoff.transactionIndex, hstore, s.afterPush_transactionIndex]
    by_cases hh : h ∈ b.txHashes <;> simp [hh]
  rw [hs.toHoldsTables.sameRecords_iff hoff.holds.toHoldsTables]
  refine and_congr ?_ ?_
  · refine forall_congr' fun k => ?_
    rw [himage]
    by_cases hk : k ∈ b.images <;> simp [hk, eq_comm]
  · refine forall_congr' fun h => ?_
    rw [htransaction]
    by_cases hh : h ∈ b.txHashes <;> simp [hh, eq_comm]

/-- What an acceptance at the tip amounts to. -/
structure Extended (cx : Crypto) (s t : ChainState) (raw : RawBlock) (p : MainChain cx)
    (b : MainBlock cx) : Prop where
  held : HoldsChain s p
  holds : HoldsChain t (p ++ [b])
  store : t.store = (s.afterPush p b).store
  cfg : t.cfg = s.cfg
  raw : b.raw = raw
  images : b.images = (b.transactions.flatMap fun tx => tx.body.keyImages).reverse
  nonempty : p ≠ []

theorem addBlock_main (hU : UniqueIds cx U) (hI : Stable U I) (h : Kept U I s chain)
    (hknown : raw ∈ U) {outcome : AddOutcome} (hadd : addBlock cx raw s = .ok outcome t)
    (hmain : outcome.status = .main) :
    ∃ b, Extended cx s t raw chain b ∧ outcome.index = chain.length := by
  obtain ⟨exclude,u,_,haccepted,rfl⟩ := (addBlock_spec hU hI h hknown).of_ok_of_eq hadd
  cases haccepted with
  | main prev d b hpres hraw hprev hparent hcheck hkept =>
    refine ⟨b,⟨h.sound.holds,((hkept.pruned hI none).cleared hI).sound.holds,?_,?_,hraw,?_,
      h.sound.nonempty⟩,hprev⟩
    · rw [pruned_eq]
      rfl
    · rw [pruned_eq]
      rfl
    · rw [← hraw] at hcheck
      exact (checkMain_images hcheck).1
  | alternative => cases hmain
  | switched => cases hmain

variable (h : Extended cx s t raw p b)
include h

theorem Extended.knowsRefs : t.KnowsRefs p.length := by
  left
  rw [h.store]
  simp [afterPush, pushed_blockOutputs]

theorem Extended.unwindBlock :
    ∃ u, unwindBlock cx p.length t = .ok ⟨⟩ u ∧
      (SameRecords s u ↔ s.spendsNothingHeld cx raw = true) := by
  obtain ⟨u,hrun,hoff,_⟩ := h.holds.unwindBlock_ok h.knowsRefs
  refine ⟨u,hrun,?_⟩
  rw [hoff.sameRecords_iff h.held h.store, b.spendsNothingHeld_iff h.raw h.images]

theorem Extended.rewindTo
    (hlite : ¬ (s.cfg.liteStartHeight ≠ 0 ∧ p.length < s.cfg.liteStartHeight)) :
    ∃ u, rewindTo cx (p.length-1) t = .ok 1 u ∧
      (SameRecords s u ↔ s.spendsNothingHeld cx raw = true) := by
  have hpos : p.length - 1 + 1 = p.length := by
    have := List.length_pos_iff.2 h.nonempty
    omega
  obtain ⟨u,hrun,hoff,_⟩ := h.holds.rewindTo_ok hpos.symm (by simp)
    (by rw [h.cfg, hpos]; exact hlite)
    (fun i hlo hhi => by
      have hi : i = p.length := by simp at hhi; omega
      subst hi
      exact h.knowsRefs)
  refine ⟨u,hrun,?_⟩
  rw [hoff.sameRecords_iff h.held h.store, b.spendsNothingHeld_iff h.raw h.images]

end

/-- Taking off the block just accepted gives back the records there were, exactly
if the block recorded no image and no transaction a second time. -/
theorem unwind_push_iff {cx : Crypto} {cfg : Config} {checkpoints : Checkpoints} {clock now : Nat}
    {s₀ t : ChainState} (hopen : openOrGenesis cx cfg checkpoints clock = .ok ⟨⟩ s₀)
    (offers : List (Nat × RawBlock)) {raw : RawBlock}
    (hU : UniqueIds cx (blocksOf cx (offers.map Prod.snd ++ [raw]))) {outcome : AddOutcome}
    (hadd : addBlock cx raw ((runBlocks cx offers s₀).atClock now) = .ok outcome t)
    (hmain : outcome.status = .main) :
    (∃ u, unwindBlock cx outcome.index t = .ok ⟨⟩ u ∧
      (SameRecords (runBlocks cx offers s₀) u ↔
        (runBlocks cx offers s₀).spendsNothingHeld cx raw = true)) ∧
    (¬ (cfg.liteStartHeight ≠ 0 ∧ outcome.index < cfg.liteStartHeight) →
      ∃ u, rewindTo cx (outcome.index-1) t = .ok 1 u ∧
        (SameRecords (runBlocks cx offers s₀) u ↔
          (runBlocks cx offers s₀).spendsNothingHeld cx raw = true)) := by
  obtain ⟨chain,hkept⟩ := runBlocks_sound hopen hU
    (fun o ho => List.mem_append_left _ (List.mem_map_of_mem ho))
  have hkept' := Kept.atClock (I := fun _ _ => True) ⟨hkept.sound,trivial⟩ now trivial
  obtain ⟨b,hext,hindex⟩ := addBlock_main hU stable_true hkept'
    (.inl (by simp)) hadd hmain
  rw [hindex]
  have hcfg : ((runBlocks cx offers s₀).atClock now).cfg = cfg := hkept.inv.cfg
  refine ⟨hext.unwindBlock,fun hlite => hext.rewindTo ?_⟩
  rw [hcfg]
  exact hlite

/-- Two blocks with the same transaction, both below a checkpoint at index 5. -/
def sampleRespend : List (BlockTemplate × List Transaction) :=
  sampleChain [(60,[sampleSpend 10000 0 100 (mixHash [3])],100),
    (120,[sampleSpend 10000 0 100 (mixHash [3])],100)]

def sampleZone : Checkpoints := ⟨[(5,ByteVec.zero 32)],2^64-1⟩

def sampleFresh : ChainState := runBlocks sampleCrypto [] (sampleNode defaultConfig sampleZone 1000)

def sampleSpent : ChainState :=
  runBlocks sampleCrypto (sampleOffers 1000 (sampleRespend.take 1))
    (sampleNode defaultConfig sampleZone 1000)

def sampleFirst : RawBlock := sampleRespend.head?.elim ⟨[],[]⟩ fun b => sampleRaw b.1 b.2

def sampleSecond : RawBlock := sampleRespend.getLast?.elim ⟨[],[]⟩ fun b => sampleRaw b.1 b.2

/-- The second block is accepted; when it is taken off, the key image and the
transaction of the first block go with it. -/
theorem unwind_push_not_inverse :
    ∃ outcome t, addBlock sampleCrypto sampleSecond (sampleSpent.atClock 1000) =
        .ok outcome t ∧ outcome.status = .main ∧ outcome.index = 2 ∧
      (∃ v u, unwindBlock sampleCrypto 2 t = .ok v u ∧ ¬ SameRecords sampleSpent u) ∧
      ∃ v u, rewindTo sampleCrypto 1 t = .ok v u ∧ ¬ SameRecords sampleSpent u := by
  have hspent : sampleSpent.store (.keyImage (mixHash [3])) = some 1 := by decide +kernel
  have hlost : ∀ u : ChainState, u.store (.keyImage (mixHash [3])) = none →
      ¬ SameRecords sampleSpent u := by
    intro u hu hsame
    have hsame' := hsame (.keyImage (mixHash [3])) rfl
    rw [hu, hspent] at hsame'
    cases hsame'
  obtain ⟨outcome,t,hadd,hmain,hindex,hunwind,hrewind⟩ :
      ∃ outcome t, addBlock sampleCrypto sampleSecond (sampleSpent.atClock 1000) =
        .ok outcome t ∧ outcome.status = .main ∧ outcome.index = 2 ∧
      Ensures (unwindBlock sampleCrypto 2) t
        (fun _ u => u.store (.keyImage (mixHash [3])) = none) (fun _ _ => False) ∧
      Ensures (rewindTo sampleCrypto 1) t
        (fun _ u => u.store (.keyImage (mixHash [3])) = none) fun _ _ => False :=
    Ensures.exists_ok (by decide +kernel)
  obtain ⟨v,u,hu,hnone⟩ := hunwind.exists_ok
  obtain ⟨v',u',hu',hnone'⟩ := hrewind.exists_ok
  exact ⟨outcome,t,hadd,hmain,hindex,⟨v,u,hu,hlost u hnone⟩,⟨v',u',hu',hlost u' hnone'⟩⟩

/-- The first block on its own leaves no trace. -/
theorem unwind_push_iff_sample :
    ∃ outcome t u,
      addBlock sampleCrypto sampleFirst (sampleFresh.atClock 1000) = .ok outcome t ∧
      unwindBlock sampleCrypto outcome.index t = .ok ⟨⟩ u ∧
      SameRecords sampleFresh u := by
  have hU : UniqueIds sampleCrypto (blocksOf sampleCrypto [sampleFirst]) := by decide +kernel
  obtain ⟨outcome,t,hadd,hmain⟩ : ∃ outcome t,
      addBlock sampleCrypto sampleFirst (sampleFresh.atClock 1000) = .ok outcome t ∧
        outcome.status = .main := Ensures.exists_ok (by decide +kernel)
  obtain ⟨⟨u,hu,hsame⟩,_⟩ := unwind_push_iff (sampleNode_open defaultConfig sampleZone 1000)
    [] hU hadd hmain
  exact ⟨outcome,t,u,hadd,hu,hsame.2 (by decide +kernel)⟩

end Wrkz
