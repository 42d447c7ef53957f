import Wrkz.Chain.Inverse

/-!
The store represents the main chain: with no checkpoint in force every table is
the one the chain determines, the key images and the transactions included. A
spent image is refused when it comes again, and a transaction that came again
would bring its images with it.
-/

set_option autoImplicit false

namespace Wrkz

open Library ChainState MainChain List

def transactionsOf (U : Set RawBlock) : Set Transaction :=
  { tx | ∃ raw ∈ U, ∃ block, BlockTemplate.fromBytes raw.block = .ok block ∧
    (tx = block.baseTransaction ∨
      ∃ txs, parseTransactions block raw.transactions = .ok txs ∧ tx ∈ txs) }

/-- No two transactions of `U` share an id. -/
def UniqueTxIds (cx : Crypto) (U : Set RawBlock) : Prop :=
  ∀ t ∈ transactionsOf U, ∀ u ∈ transactionsOf U, ∀ h,
    t.hash cx = .ok h → u.hash cx = .ok h → t = u

def RawBlock.transactionList (raw : RawBlock) : List Transaction :=
  match BlockTemplate.fromBytes raw.block with
  | .error _ => []
  | .ok block =>
    block.baseTransaction ::
      match parseTransactions block raw.transactions with
      | .error _ => []
      | .ok txs => txs

theorem mem_blocksOf {cx : Crypto} {raws : List RawBlock} {raw : RawBlock} :
    raw ∈ blocksOf cx raws ↔ raw ∈ genesisRaws cx ++ raws := by
  rw [mem_append, mem_genesisRaws, or_comm]
  rfl

theorem mem_transactionsOf {cx : Crypto} {raws : List RawBlock} {tx : Transaction} :
    tx ∈ transactionsOf (blocksOf cx raws) ↔
      tx ∈ (genesisRaws cx ++ raws).flatMap RawBlock.transactionList := by
  unfold transactionsOf
  rw [Set.mem_ofPred_eq, mem_flatMap]
  refine exists_congr fun raw => and_congr mem_blocksOf ?_
  unfold RawBlock.transactionList
  cases BlockTemplate.fromBytes raw.block with
  | error e => simp
  | ok block =>
    simp only [Except.ok.injEq, exists_eq_left', mem_cons]
    cases parseTransactions block raw.transactions with
    | error e => simp
    | ok txs => simp

theorem uniqueTxIds_iff (cx : Crypto) (raws : List RawBlock) :
    UniqueTxIds cx (blocksOf cx raws) ↔
      ∀ t ∈ (genesisRaws cx ++ raws).flatMap RawBlock.transactionList,
        ∀ u ∈ (genesisRaws cx ++ raws).flatMap RawBlock.transactionList,
          t.hash cx = u.hash cx → t = u ∨ (t.hash cx).toOption = none :=
  distinct_iff mem_transactionsOf

instance (cx : Crypto) (raws : List RawBlock) : Decidable (UniqueTxIds cx (blocksOf cx raws)) :=
  decidable_of_iff _ (uniqueTxIds_iff cx raws).symm

def RawBlock.height? (raw : RawBlock) : Option Nat :=
  match BlockTemplate.fromBytes raw.block with
  | .error _ => none
  | .ok block => block.coinbaseHeight

/-- Inside the checkpoint zone, where nothing else keeps a spent image out, no
block brings an image again that a block further down has brought. -/
def ReplayFree (checkpoints : Checkpoints) (U : Set RawBlock) : Prop :=
  ∀ raw ∈ U, ∀ raw' ∈ U, ∀ i, raw.height? = some i → ∀ j, raw'.height? = some j → i < j →
    checkpoints.isInCheckpointZone j = true →
    ∀ tx ∈ raw.transactionList, ∀ tx' ∈ raw'.transactionList, ∀ k ∈ tx.body.keyImages,
      k ∉ tx'.body.keyImages

instance (checkpoints : Checkpoints) (cx : Crypto) (raws : List RawBlock) :
    Decidable (ReplayFree checkpoints (blocksOf cx raws)) :=
  decidable_of_iff (∀ raw ∈ genesisRaws cx ++ raws, ∀ raw' ∈ genesisRaws cx ++ raws,
    ∀ i ∈ raw.height?, ∀ j ∈ raw'.height?, i < j → checkpoints.isInCheckpointZone j = true →
      ∀ tx ∈ raw.transactionList, ∀ tx' ∈ raw'.transactionList, ∀ k ∈ tx.body.keyImages,
        k ∉ tx'.body.keyImages) (by simp only [ReplayFree, mem_blocksOf, Option.mem_def])

theorem ReplayFree.of_noZone {checkpoints : Checkpoints} (U : Set RawBlock)
    (hzone : ∀ i, checkpoints.isInCheckpointZone i = false) : ReplayFree checkpoints U := by
  intro _ _ _ _ _ _ j _ _ hj
  rw [hzone j] at hj
  cases hj

def MainBlock.spent {cx : Crypto} (b : MainBlock cx) : List Hash :=
  b.transactions.flatMap fun tx => tx.body.keyImages

/-- What acceptance with no checkpoint in force established of each block. -/
structure WellSpent {cx : Crypto} (b : MainBlock cx) : Prop where
  images : b.images = b.spent.reverse
  nodup : b.images.Nodup
  named : suppliedHashes cx b.transactions = .ok b.block.transactionHashes
  inputs : ∀ tx ∈ b.transactions, tx.body.inputs ≠ []
  keys : ∀ tx ∈ b.transactions, ∀ input ∈ tx.body.inputs, input.isKey

section

variable {cx : Crypto} {U : Set RawBlock} {s t : ChainState} {chain p q : MainChain cx}
  {b c : MainBlock cx} {k h : Hash}

theorem WellSpent.mem_images (hb : WellSpent b) : k ∈ b.images ↔ k ∈ b.spent := by
  rw [hb.images, mem_reverse]

variable {checkpoints : Checkpoints} {cfg : Config} {prev d : Nat} {tx : Transaction}
  {g : MainBlock cx} {i j : Nat}

theorem exists_keyImage (hne : tx.body.inputs ≠ [])
    (hkeys : ∀ input ∈ tx.body.inputs, input.isKey) : ∃ k, k ∈ tx.body.keyImages := by
  cases hinputs : tx.body.inputs with
  | nil => exact absurd hinputs hne
  | cons input rest =>
    have hkey := hkeys input (by simp [hinputs])
    cases input with
    | base i => exact hkey.elim
    | key amount offsets image =>
      exact ⟨image,by simp [TransactionPrefix.keyImages, hinputs, Input.keyImage?]⟩

theorem mem_suppliedHashes_iff {txs : List Transaction} {hashes : List Hash}
    (hsupplied : suppliedHashes cx txs = .ok hashes) :
    h ∈ hashes ↔ ∃ tx ∈ txs, tx.hash cx = .ok h := by
  induction txs generalizing hashes with
  | nil =>
    cases hsupplied
    simp
  | cons tx txs ih =>
    simp only [suppliedHashes, bind_ok_iff, pure_ok_iff, mapError_ok_iff] at hsupplied
    obtain ⟨x,hx,rest,hrest,rfl⟩ := hsupplied
    simp [ih hrest, hx, eq_comm]

theorem WellSpent.mem_txHashes_iff (hb : WellSpent b) : h ∈ b.txHashes ↔
    b.block.baseTransaction.hash cx = .ok h ∨ ∃ tx ∈ b.transactions, tx.hash cx = .ok h := by
  rw [← mem_suppliedHashes_iff hb.named, b.coinbaseHashed, Except.ok.injEq, eq_comm]
  exact mem_cons

theorem coinbase_mem (hb : b.raw ∈ U) : b.block.baseTransaction ∈ transactionsOf U :=
  ⟨b.raw,hb,b.block,b.parsed,.inl rfl⟩

theorem transaction_mem (hb : b.raw ∈ U) (htx : tx ∈ b.transactions) : tx ∈ transactionsOf U :=
  ⟨b.raw,hb,b.block,b.parsed,.inr ⟨b.transactions,b.transactionsParsed,htx⟩⟩

theorem coinbaseHeight_not_keys {block : BlockTemplate} {i : Nat}
    (hheight : block.coinbaseHeight = some i)
    (hkeys : ∀ input ∈ block.baseTransaction.body.inputs, input.isKey) : False := by
  unfold BlockTemplate.coinbaseHeight at hheight
  split at hheight
  · rename_i index hinputs
    exact hkeys (.base index) (by simp [hinputs])
  · cases hheight

/-- Two blocks at different heights that spend nothing in common share no
transaction id. -/
theorem WellSpent.disjoint_txHashes (hT : UniqueTxIds cx U) (hb : WellSpent b) (hc : WellSpent c)
    (hbU : b.raw ∈ U) (hcU : c.raw ∈ U) (hi : b.block.coinbaseHeight = some i)
    (hj : c.block.coinbaseHeight = some j) (hij : i ≠ j) (hdisjoint : ∀ k ∈ b.images, k ∉ c.images)
    (hbh : h ∈ b.txHashes) (hch : h ∈ c.txHashes) : False := by
  rcases hb.mem_txHashes_iff.1 hbh with hbh | ⟨tx,htx,hbh⟩
  · rcases hc.mem_txHashes_iff.1 hch with hch | ⟨u,hu,hch⟩
    · have heq := hT _ (coinbase_mem hbU) _ (coinbase_mem hcU) h hbh hch
      have hsame : b.block.coinbaseHeight = c.block.coinbaseHeight := by
        unfold BlockTemplate.coinbaseHeight
        rw [heq]
      rw [hi, hj] at hsame
      exact hij (Option.some.inj hsame)
    · have heq := hT _ (coinbase_mem hbU) _ (transaction_mem hcU hu) h hbh hch
      exact coinbaseHeight_not_keys hi (by rw [heq]; exact hc.keys u hu)
  · rcases hc.mem_txHashes_iff.1 hch with hch | ⟨u,hu,hch⟩
    · have heq := hT _ (transaction_mem hbU htx) _ (coinbase_mem hcU) h hbh hch
      exact coinbaseHeight_not_keys hj (by rw [← heq]; exact hb.keys tx htx)
    · have heq := hT _ (transaction_mem hbU htx) _ (transaction_mem hcU hu) h hbh hch
      obtain ⟨k,hk⟩ := exists_keyImage (hb.inputs tx htx) (hb.keys tx htx)
      refine hdisjoint k (hb.mem_images.2 ?_) (hc.mem_images.2 ?_)
      · exact mem_flatMap.2 ⟨tx,htx,hk⟩
      · exact mem_flatMap.2 ⟨u,hu,heq ▸ hk⟩

theorem checkMain_wellSpent (hstrict : s.strictTransactionList = true)
    (hcheck : s.checkMain cx b.block b.raw.transactions b.info.blockHash prev = .ok (b.accepted d)) :
    WellSpent b where
  images := (checkMain_images hcheck).1
  nodup := (checkMain_images hcheck).2
  named := checkMain_named hstrict hcheck
  inputs tx htx := ((checkMain_transactions hcheck).1.passed tx htx).nonempty
  keys tx htx := ((checkMain_transactions hcheck).1.passed tx htx).keys

/-- Outside the zone the images of an accepted block were not spent up to its
parent. -/
theorem checkMain_unspent (hzone : s.checkpoints.isInCheckpointZone (prev+1) = false)
    (hcheck : s.checkMain cx b.block b.raw.transactions b.info.blockHash prev = .ok (b.accepted d))
    (hk : k ∈ b.images) : s.access.keyImageSpent k prev = false := by
  obtain ⟨himages,_⟩ := checkMain_images hcheck
  rw [himages, mem_reverse, mem_flatMap] at hk
  obtain ⟨tx,htx,hk⟩ := hk
  have hpassed := (checkMain_transactions hcheck).1.passed tx htx
  obtain ⟨input,hinput,himage⟩ := mem_filterMap.1 hk
  obtain ⟨i,hi⟩ := getElem?_of_mem hinput
  obtain ⟨image,ring,signatures,hring,_⟩ := hpassed.rings hzone i input hi
  cases input with
  | base index => cases himage
  | key amount offsets image' =>
    cases himage
    exact (gatherRing_ok_iff.1 hring).1

theorem MainBlock.height?_eq (b : MainBlock cx) : b.raw.height? = b.block.coinbaseHeight := by
  unfold RawBlock.height?
  rw [b.parsed]

theorem MainBlock.mem_transactionList (b : MainBlock cx)
    (htx : tx ∈ b.transactions) : tx ∈ b.raw.transactionList := by
  unfold RawBlock.transactionList
  rw [b.parsed]
  simp only [b.transactionsParsed]
  exact mem_cons_of_mem _ htx

theorem ReplayFree.notMem_images (hfree : ReplayFree checkpoints U)
    (hb : WellSpent b) (hc : WellSpent c) (hbU : b.raw ∈ U) (hcU : c.raw ∈ U)
    (hi : c.block.coinbaseHeight = some i) (hj : b.block.coinbaseHeight = some j) (hij : i < j)
    (hzone : checkpoints.isInCheckpointZone j = true) (hk : k ∈ b.images) : k ∉ c.images := by
  intro hkc
  obtain ⟨tx,htx,hktx⟩ := mem_flatMap.1 (hb.mem_images.1 hk)
  obtain ⟨u,hu,hku⟩ := mem_flatMap.1 (hc.mem_images.1 hkc)
  exact hfree c.raw hcU b.raw hbU i (c.height?_eq.trans hi) j (b.height?_eq.trans hj) hij hzone
    u (c.mem_transactionList hu) tx (b.mem_transactionList htx) k hku hktx

namespace HoldsSpends

section

variable (hs : HoldsSpends s chain)
include hs

theorem keyImage_lt {i : Nat} (hk : s.store (.keyImage k) = some i) : i < chain.length := by
  obtain ⟨c,hc,_⟩ := (hs.keyImages k i).1 hk
  exact (List.getElem?_eq_some_iff.1 hc).1

theorem keyImage_eq_none {prev : Nat} (hprev : prev + 1 = chain.length)
    (hk : s.access.keyImageSpent k prev = false) : s.store (.keyImage k) = none := by
  cases hstore : s.store (.keyImage k) with
  | none => rfl
  | some i =>
    have hlt := hs.keyImage_lt hstore
    simp only [access, keyImageSpentAt, hstore, decide_eq_false_iff_not] at hk
    omega

theorem notMem_images (hk : s.store (.keyImage k) = none) : ∀ c ∈ chain, k ∉ c.images := by
  intro c hc hkc
  obtain ⟨i,hi⟩ := getElem?_of_mem hc
  rw [(hs.keyImages k i).2 ⟨c,hi,hkc⟩] at hk
  cases hk

theorem transactionIndex_eq_none
    (hh : ∀ c ∈ chain, h ∉ c.txHashes) : s.store (.transactionIndex h) = none := by
  cases hstore : s.store (.transactionIndex h) with
  | none => rfl
  | some i =>
    obtain ⟨c,hc,hhc⟩ := (hs.transactions h i).1 hstore
    exact absurd hhc (hh c (mem_of_getElem? hc))

end

/-- A table that is overwritten with one new index only where it had none. -/
theorem overwritten_iff {x : Option Nat} {mine : Prop} [Decidable mine] {i n : Nat}
    {holds : Nat → Prop} (hfresh : mine → x = none) (hx : ∀ i, x = some i ↔ holds i)
    (hn : ¬ holds n) : (if mine then some n else x) = some i ↔
      if i = n then mine else holds i := by
  by_cases hmine : mine
  · rw [if_pos hmine]
    by_cases hi : i = n
    · simp [hi, hmine]
    · have hnone := hfresh hmine
      rw [if_neg hi, ← hx, hnone]
      simp only [Option.some.injEq, reduceCtorEq, iff_false]
      omega
  · rw [if_neg hmine]
    by_cases hi : i = n
    · rw [if_pos hi, hi, hx]
      exact ⟨fun h => absurd h hn,fun h => absurd h hmine⟩
    · rw [if_neg hi, hx]

theorem push (hs : HoldsSpends s chain) (hkeys : ∀ k ∈ b.images, s.store (.keyImage k) = none)
    (htxs : ∀ h ∈ b.txHashes, s.store (.transactionIndex h) = none) :
    HoldsSpends (s.afterPush chain b) (chain ++ [b]) := by
  constructor
  · intro k i
    rw [s.afterPush_keyImage, overwritten_iff (hkeys k) (hs.keyImages k)]
    · rw [getElem?_concat]
      split <;> simp
    · simp
  · intro h i
    rw [s.afterPush_transactionIndex, overwritten_iff (htxs h) (hs.transactions h)]
    · rw [getElem?_concat]
      split <;> simp
    · simp

theorem remaining_iff {x : Option Nat} {has : MainBlock cx → Prop} {i : Nat}
    [Decidable (∃ c ∈ q, has c)] (hx : ∀ i, x = some i ↔ ∃ c, (p ++ q)[i]? = some c ∧ has c) :
    (if ∃ c ∈ q, has c then none else x) = some i ↔ ∃ c, p[i]? = some c ∧ has c := by
  have hleft : ∀ {i : Nat} {c : MainBlock cx}, p[i]? = some c → (p ++ q)[i]? = some c := by
    intro i c hc
    rwa [List.getElem?_append_left (List.getElem?_eq_some_iff.1 hc).1]
  by_cases hq : ∃ c ∈ q, has c
  · rw [if_pos hq]
    obtain ⟨c,hc,hhas⟩ := hq
    obtain ⟨j,hj⟩ := getElem?_of_mem hc
    have hxj : x = some (p.length + j) := by
      refine (hx _).2 ⟨c,?_,hhas⟩
      rw [getElem?_append_right (by omega), Nat.add_sub_cancel_left]
      exact hj
    constructor
    · intro h
      cases h
    · intro h
      obtain ⟨d,hd,hdhas⟩ := h
      have hlt := (List.getElem?_eq_some_iff.1 hd).1
      have hxi := (hx i).2 ⟨d,hleft hd,hdhas⟩
      rw [hxj] at hxi
      have := Option.some.inj hxi
      omega
  · rw [if_neg hq, hx]
    constructor
    · intro h
      obtain ⟨c,hc,hhas⟩ := h
      by_cases hlt : i < p.length
      · rw [getElem?_append_left hlt] at hc
        exact ⟨c,hc,hhas⟩
      · rw [getElem?_append_right (by omega)] at hc
        exact absurd ⟨c,mem_of_getElem? hc,hhas⟩ hq
    · intro h
      obtain ⟨c,hc,hhas⟩ := h
      exact ⟨c,hleft hc,hhas⟩

theorem takeOff (hs : HoldsSpends s (p ++ q)) (hoff : TakenOff s t p q) : HoldsSpends t p := by
  constructor
  · intro k i
    rw [hoff.keyImage]
    exact remaining_iff (hs.keyImages k)
  · intro h i
    rw [hoff.transactionIndex]
    exact remaining_iff (hs.transactions h)

end HoldsSpends

namespace HoldsBodies

theorem push (hs : HoldsBodies s chain) (hprune : s.cfg.pruneDepth = none) :
    HoldsBodies (s.afterPush chain b) (chain ++ [b]) := by
  intro i
  have hread : (s.afterPush chain b).store (.rawBlock i) =
      if i = chain.length ∧ s.cfg.keepsBody chain.length chain.length = true then some b.raw
      else s.store (.rawBlock i) :=
    s.pushed_rawBlock_of_unpruned _ _ _ _ _ hprune i
  have hcfg : (s.afterPush chain b).cfg = s.cfg := rfl
  rw [hread, hcfg, getElem?_concat, hs i]
  by_cases hi : i = chain.length
  · subst hi
    by_cases hk : s.cfg.keepsBody chain.length chain.length = true <;> simp [hk]
  · simp [hi]

theorem takeOff (hs : HoldsBodies s (p ++ q)) (hoff : TakenOff s t p q) : HoldsBodies t p := by
  intro i
  rw [hoff.env.cfg]
  by_cases hlt : i < p.length
  · rw [hoff.rawBlock i hlt, hs i, getElem?_append_left hlt]
  · have hnone : p[i]? = none := getElem?_eq_none (by omega)
    cases hraw : t.store (.rawBlock i) with
    | none => simp [hnone]
    | some raw =>
      obtain ⟨c,hc,_⟩ := hoff.holds.rawBlocks i raw hraw
      rw [hnone] at hc
      cases hc

end HoldsBodies

/-- Everything the store records of the chain but for the bodies. -/
structure Ledgered (cfg : Config) (checkpoints : Checkpoints) (s : ChainState)
    (chain : MainChain cx) : Prop where
  configured : Configured cfg checkpoints s
  spends : HoldsSpends s chain
  wellSpent : ∀ b ∈ chain, WellSpent b

structure Recorded (cfg : Config) (checkpoints : Checkpoints) (s : ChainState)
    (chain : MainChain cx) : Prop extends Ledgered cfg checkpoints s chain where
  bodies : HoldsBodies s chain

theorem Ledgered.images_fresh (hfree : ReplayFree checkpoints U) (hsound : Sound U s chain)
    (hrec : Ledgered cfg checkpoints s chain) (hprev : prev + 1 = chain.length) (hknown : b.raw ∈ U)
    (hcheck : s.checkMain cx b.block b.raw.transactions b.info.blockHash prev = .ok (b.accepted d))
    (hheight : b.block.coinbaseHeight = some (prev+1)) (hk : k ∈ b.images) :
    s.store (.keyImage k) = none := by
  cases hzone : checkpoints.isInCheckpointZone (prev+1) with
  | false =>
    rw [← hrec.configured.checkpoints] at hzone
    exact hrec.spends.keyImage_eq_none hprev (checkMain_unspent hzone hcheck hk)
  | true =>
    cases hstore : s.store (.keyImage k) with
    | none => rfl
    | some i =>
      obtain ⟨c,hc,hkc⟩ := (hrec.spends.keyImages k i).1 hstore
      have hlt := hrec.spends.keyImage_lt hstore
      have hmem := mem_of_getElem? hc
      exact absurd hkc (hfree.notMem_images (checkMain_wellSpent hrec.configured.strict hcheck)
        (hrec.wellSpent c hmem) hknown (hsound.linked.known c hmem)
        (hsound.linked.height i c hc) hheight (by omega) hzone hk)

/-- An accepted block brings images and transactions that are not on record. -/
theorem Ledgered.fresh (hT : UniqueTxIds cx U) (hfree : ReplayFree checkpoints U)
    (hsound : Sound U s chain) (hrec : Ledgered cfg checkpoints s chain)
    (hprev : prev + 1 = chain.length) (hknown : b.raw ∈ U)
    (hcheck : s.checkMain cx b.block b.raw.transactions b.info.blockHash prev = .ok (b.accepted d)) :
    (∀ k ∈ b.images, s.store (.keyImage k) = none) ∧
      ∀ h ∈ b.txHashes, s.store (.transactionIndex h) = none := by
  have hheight : b.block.coinbaseHeight = some (prev+1) := by
    obtain ⟨_,_,_,_,_,_,hhead,_⟩ := checkMain_ok_iff.1 hcheck
    exact checkHead_coinbaseHeight hhead
  have himages : ∀ k ∈ b.images, s.store (.keyImage k) = none := fun k hk =>
    hrec.images_fresh hfree hsound hprev hknown hcheck hheight hk
  refine ⟨himages,?_⟩
  intro h hh
  refine hrec.spends.transactionIndex_eq_none ?_
  intro c hc hhc
  obtain ⟨i,hi⟩ := List.getElem?_of_mem hc
  have hlt := (List.getElem?_eq_some_iff.1 hi).1
  exact WellSpent.disjoint_txHashes hT (checkMain_wellSpent hrec.configured.strict hcheck)
    (hrec.wellSpent c hc) hknown (hsound.linked.known c hc) hheight
    (hsound.linked.height i c hi) (by omega)
    (fun k hk => hrec.spends.notMem_images (himages k hk) c hc) hh hhc

theorem rewindable_ledgered :
    Rewindable U (fun s (chain : MainChain cx) => Ledgered cfg checkpoints s chain) :=
  fun _ _ hrec hoff => ⟨hrec.configured.sameEnv hoff.env,hrec.spends.takeOff hoff,
    fun c hc => hrec.wellSpent c (mem_append_left _ hc)⟩

theorem Ledgered.congr (h : Ledgered cfg checkpoints s chain) (hstore : t.store = s.store)
    (hconf : Configured cfg checkpoints t) : Ledgered cfg checkpoints t chain :=
  ⟨hconf,⟨by rw [hstore]; exact h.spends.keyImages,by rw [hstore]; exact h.spends.transactions⟩,
    h.wellSpent⟩

theorem stable_ledgered (hT : UniqueTxIds cx U) (hfree : ReplayFree checkpoints U) :
    Stable U (fun s (chain : MainChain cx) => Ledgered cfg checkpoints s chain) where
  push hsound hrec hprev hknown hcheck _ := by
    obtain ⟨himages,htxs⟩ := hrec.fresh hT hfree hsound hprev hknown hcheck
    have hconf := hrec.configured
    refine ⟨{ hconf with },
      hrec.spends.push himages htxs,?_⟩
    intro c hc
    rcases mem_append.1 hc with hc | hc
    · exact hrec.wellSpent c hc
    · rw [mem_singleton.1 hc]
      exact checkMain_wellSpent hconf.strict hcheck
  takeOff hsound hp hrec hoff := rewindable_ledgered hsound hp hrec hoff.toTakenOff
  branches _ _ h := h.congr rfl
    { h.configured with }

theorem stable_recorded (hT : UniqueTxIds cx U)
    (hfree : ReplayFree checkpoints U) (hprune : cfg.pruneDepth = none) :
    Stable U (fun s (chain : MainChain cx) => Recorded cfg checkpoints s chain) where
  push hsound hrec hprev hknown hcheck hfresh :=
    ⟨(stable_ledgered hT hfree).push hsound hrec.toLedgered hprev hknown hcheck hfresh,
      hrec.bodies.push (by rw [hrec.configured.cfg]; exact hprune)⟩
  takeOff hsound hp hrec hoff :=
    ⟨(stable_ledgered hT hfree).takeOff hsound hp hrec.toLedgered hoff,
      hrec.bodies.takeOff hoff.toTakenOff⟩
  branches alts unwound hrec :=
    ⟨(stable_ledgered hT hfree).branches alts unwound hrec.toLedgered,hrec.bodies⟩

theorem rewindable_recorded :
    Rewindable U (fun s (chain : MainChain cx) => Recorded cfg checkpoints s chain) :=
  fun hsound hp hrec hoff =>
    ⟨rewindable_ledgered hsound hp hrec.toLedgered hoff,hrec.bodies.takeOff hoff⟩

theorem IsGenesis.wellSpent (hg : IsGenesis g) : WellSpent g where
  images := by simp [hg.images, MainBlock.spent, hg.transactions]
  nodup := by simp [hg.images]
  named := by simp [hg.transactions, suppliedHashes, (genesis_facts hg.template).2.2.1]
  inputs := by simp [hg.transactions]
  keys := by simp [hg.transactions]

theorem genesis_ledgered (hg : IsGenesis g) (cfg : Config)
    (checkpoints : Checkpoints) (clock : Nat) :
    Ledgered cfg checkpoints ((openEmpty cfg checkpoints clock).afterPush [] g) [g] := by
  have hkeys : ∀ k, (openEmpty cfg checkpoints clock).store (.keyImage k) = none :=
    fun k => openEmpty_store cfg checkpoints clock (by simp) (by simp) (by simp)
  have htxs : ∀ h, (openEmpty cfg checkpoints clock).store (.transactionIndex h) = none :=
    fun h => openEmpty_store cfg checkpoints clock (by simp) (by simp) (by simp)
  have hempty : HoldsSpends (openEmpty cfg checkpoints clock) ([] : MainChain cx) :=
    ⟨fun k i => by simp [hkeys],fun h i => by simp [htxs]⟩
  refine ⟨openEmpty_configured cfg checkpoints clock [] g,
    hempty.push (fun k _ => hkeys k) (fun h _ => htxs h),?_⟩
  intro c hc
  rw [mem_singleton.1 hc]
  exact hg.wellSpent

theorem genesis_recorded (hg : IsGenesis g) (cfg : Config)
    (checkpoints : Checkpoints) (clock : Nat) (hprune : cfg.pruneDepth = none) :
    Recorded cfg checkpoints ((openEmpty cfg checkpoints clock).afterPush [] g) [g] := by
  have hbodies : HoldsBodies (openEmpty cfg checkpoints clock) ([] : MainChain cx) :=
    fun i => by
      rw [openEmpty_store cfg checkpoints clock (by simp) (by simp) (by simp)]
      simp
  exact ⟨genesis_ledgered hg cfg checkpoints clock,hbodies.push hprune⟩

theorem runCalls_recorded {clock : Nat} {raws : List RawBlock} {calls : List Call} {s₀ : ChainState}
    (hopen : openOrGenesis cx cfg checkpoints clock = .ok ⟨⟩ s₀)
    (hU : UniqueIds cx (blocksOf cx raws)) (hT : UniqueTxIds cx (blocksOf cx raws))
    (hzone : ∀ i, checkpoints.isInCheckpointZone i = false) (hprune : cfg.pruneDepth = none)
    (hcalls : ∀ call ∈ calls, ∀ raw, call.raw? = some raw → raw ∈ raws) :
    ∃ chain, Kept (blocksOf cx raws) (fun s (chain : MainChain cx) =>
      Recorded cfg checkpoints s chain) (runCalls cx calls s₀) chain := by
  obtain ⟨g,hg,hs⟩ := openOrGenesis_eq hopen
  have hsound := genesis_sound hg (hg.mem_blocksOf raws) hs
  subst hs
  refine runCalls_kept hU (stable_recorded hT (.of_noZone _ hzone) hprune) rewindable_recorded ?_
    (fun call hcall raw hraw => .inl (hcalls call hcall raw hraw))
    ⟨hsound,genesis_recorded hg cfg checkpoints clock hprune⟩
  intro s chain now h
  exact ⟨h.toLedgered.congr rfl
    { h.configured with },h.bodies⟩

theorem outputLog_sorted (chain : MainChain cx) (a : Nat) :
    ((chain.outputLog a).map OutputRecord.blockIndex).Pairwise (· ≤ ·) := by
  have hfrom : ∀ start, ((outputsFrom start chain).map
      fun o => o.2.blockIndex).Pairwise (· ≤ ·) := by
    induction chain with
    | nil => simp [outputsFrom]
    | cons b rest ih =>
      intro start
      rw [outputsFrom, map_append, pairwise_append]
      refine ⟨?_,ih (start+1),?_⟩
      · rw [pairwise_map]
        exact pairwise_of_forall_mem_list fun o ho o' ho' =>
          ((outputsAt_blockIndex ho).trans (outputsAt_blockIndex ho').symm).le
      · intro i hi j hj
        obtain ⟨o,ho,rfl⟩ := mem_map.1 hi
        obtain ⟨o',ho',rfl⟩ := mem_map.1 hj
        have h := outputsAt_blockIndex ho
        have h' := outputsFrom_blockIndex ho'
        omega
  have hsub := (recordsOf_sublist a chain.outputs).map OutputRecord.blockIndex
  rw [map_map] at hsub
  exact (hfrom 0).sublist hsub

end

/-- The store is the one the chain determines. -/
structure Represents {cx : Crypto} (s : ChainState) (chain : MainChain cx) : Prop where
  nonempty : chain ≠ []
  tip : s.tip = some (chain.length-1)
  rawBlock : ∀ i, s.store (.rawBlock i) = (chain[i]?).map MainBlock.raw
  blockInfo : ∀ i, s.store (.blockInfo i) = (chain[i]?).map MainBlock.info
  hashToIndex : ∀ h i, s.store (.hashToIndex h) = some i ↔
    ∃ b, chain[i]? = some b ∧ b.block.hash cx = .ok h
  output : ∀ a n, s.store (.output a n) = (chain.outputLog a)[n]?
  outputCount : ∀ a, s.outputCountForAmount a = (chain.outputLog a).length
  outputOrder : ∀ a, ((chain.outputLog a).map OutputRecord.blockIndex).Pairwise (· ≤ ·)
  keyImage : ∀ k i, s.store (.keyImage k) = some i ↔
    ∃ b tx, chain[i]? = some b ∧ tx ∈ b.transactions ∧ k ∈ tx.body.keyImages
  spentOnce : (chain.flatMap MainBlock.spent).Nodup
  transactionIndex : ∀ h i, s.store (.transactionIndex h) = some i ↔
    ∃ b tx, chain[i]? = some b ∧ tx ∈ b.block.baseTransaction :: b.transactions ∧
      tx.hash cx = .ok h

section

variable {cx : Crypto} {U : Set RawBlock} {s : ChainState} {chain : MainChain cx}
  {b : MainBlock cx} {h : Hash}

theorem HoldsSpends.spent_nodup (hs : HoldsSpends s chain) (hwell : ∀ b ∈ chain, WellSpent b) :
    (chain.flatMap MainBlock.spent).Nodup := by
  rw [nodup_flatMap]
  constructor
  · intro b hb
    have := (hwell b hb).nodup
    rwa [(hwell b hb).images, nodup_reverse] at this
  · rw [pairwise_iff_getElem]
    intro i j hi hj hij k hki hkj
    have hb := getElem_mem hi
    have hc := getElem_mem hj
    have hstorei := (hs.keyImages k i).2 ⟨_,getElem?_eq_getElem hi,(hwell _ hb).mem_images.2 hki⟩
    have hstorej := (hs.keyImages k j).2 ⟨_,getElem?_eq_getElem hj,(hwell _ hc).mem_images.2 hkj⟩
    rw [hstorei] at hstorej
    have heq : i = j := Option.some.inj hstorej
    omega

theorem Recorded.represents {cfg : Config} {checkpoints : Checkpoints} (hfull : cfg.FullBody)
    (hsound : Sound U s chain) (hrec : Recorded cfg checkpoints s chain) : Represents s chain where
  nonempty := hsound.nonempty
  tip := by
    have hpos := length_pos_iff.2 hsound.nonempty
    rw [hsound.holds.tip]
    exact tip_eq_some_iff.2 (by omega)
  rawBlock i := by
    have hkeeps : s.cfg.keepsBody i i = true := by
      rw [hrec.configured.cfg]
      simp [Config.keepsBody, hfull.storeRawBlocks, hfull.liteStartHeight, hfull.pruneDepth]
    rw [hrec.bodies i, if_pos hkeeps]
  blockInfo := hsound.holds.infos
  hashToIndex h i := by
    rw [hsound.holds.hashes]
    refine exists_congr fun b => and_congr_right fun _ => ?_
    rw [b.hashed, Except.ok.injEq]
  output := hsound.holds.outputs.entry_eq
  outputCount := hsound.holds.outputs.count_getD
  outputOrder := outputLog_sorted chain
  keyImage k i := by
    rw [hrec.spends.keyImages]
    refine exists_congr fun b => ?_
    constructor
    · intro hk
      have hspent := (hrec.wellSpent b (mem_of_getElem? hk.1)).mem_images.1 hk.2
      obtain ⟨tx,htx,hktx⟩ := mem_flatMap.1 hspent
      exact ⟨tx,hk.1,htx,hktx⟩
    · intro hk
      obtain ⟨tx,hb,htx,hktx⟩ := hk
      exact ⟨hb,(hrec.wellSpent b (mem_of_getElem? hb)).mem_images.2 (mem_flatMap.2 ⟨tx,htx,hktx⟩)⟩
  spentOnce := hrec.spends.spent_nodup hrec.wellSpent
  transactionIndex h i := by
    rw [hrec.spends.transactions]
    refine exists_congr fun b => ?_
    have hcons := exists_mem_cons_iff (fun tx => tx.hash cx = .ok h) b.block.baseTransaction
      b.transactions
    constructor
    · intro hh
      obtain ⟨tx,htx,heq⟩ :=
        hcons.2 ((hrec.wellSpent b (mem_of_getElem? hh.1)).mem_txHashes_iff.1 hh.2)
      exact ⟨tx,hh.1,htx,heq⟩
    · intro hh
      obtain ⟨tx,hb,htx,heq⟩ := hh
      exact ⟨hb,(hrec.wellSpent b (mem_of_getElem? hb)).mem_txHashes_iff.2 (hcons.1 ⟨tx,htx,heq⟩)⟩

end

/-- After every run of `add_block` and `rewind_to` the store represents a main
chain, which the stored bodies name. -/
theorem runCalls_represents {cx : Crypto} {cfg : Config} {checkpoints : Checkpoints}
    {clock : Nat} {s₀ : ChainState} {calls : List Call} (hfull : cfg.FullBody)
    (hzone : ∀ i, checkpoints.isInCheckpointZone i = false)
    (hopen : openOrGenesis cx cfg checkpoints clock = .ok ⟨⟩ s₀)
    (hU : UniqueIds cx (blocksOf cx (calls.filterMap Call.raw?)))
    (hT : UniqueTxIds cx (blocksOf cx (calls.filterMap Call.raw?))) :
    ∃ chain : MainChain cx, Represents (runCalls cx calls s₀) chain := by
  obtain ⟨chain,hkept⟩ := runCalls_recorded hopen hU hT hzone hfull.pruneDepth
    (fun call hcall raw hraw => List.mem_filterMap.2 ⟨call,hcall,hraw⟩)
  exact ⟨chain,hkept.inv.represents hfull hkept.sound⟩

/-- The main chain of a block a minute, the branch that replaces it, and a rewind. -/
def sampleCalls : List Call :=
  (sampleMain ++ sampleHeavyBranch).map (fun offer => Call.addBlock offer.1 offer.2) ++
    [.rewindTo 1000 1]

theorem runCalls_represents_sample :
    ∃ chain : MainChain sampleCrypto,
      Represents (runCalls sampleCrypto sampleCalls (sampleNode {} .none 1000)) chain :=
  runCalls_represents ⟨rfl,rfl,rfl,rfl⟩ Checkpoints.none_isInCheckpointZone
    (sampleNode_open {} .none 1000)
    (by decide +kernel) (by decide +kernel)

end Wrkz
