import Wrkz.Chain.Spends
import Wrkz.Mempool.Spends
import Wrkz.Node.Shared

/-!
The pool and the chain agree when nothing is in progress. While the engine is between its
chain guard and its sweeps it owes the pool what the block at hand spent; no other call
leaves anything behind, since admissions and submitted blocks hold the chain throughout.
-/

set_option autoImplicit false

namespace Wrkz

open Library TransactionPool

namespace EngineCall

/-- The image is one the engine has yet to sweep out of the pool. -/
def Owes : EngineCall → Hash → Prop
  | .checking raw report, k | .mined raw report, k =>
    report.outcome.status = .alternativeAndSwitched ∨ k ∈ spentKeyImages raw.transactions
  | .switched _ report, _ => report.outcome.status = .alternativeAndSwitched
  | _, _ => False

def Sweeping : EngineCall → Prop
  | .checking _ _ | .mined _ _ => True
  | _ => False

end EngineCall

theorem parseTransactionBlobs_spentKeyImages {blobs : List Bytes} {txs : List Transaction}
    (h : parseTransactionBlobs blobs = .ok txs) :
    spentKeyImages blobs = txs.flatMap fun tx => tx.body.keyImages := by
  induction blobs generalizing txs with
  | nil =>
    cases h
    rfl
  | cons blob blobs ih =>
    unfold parseTransactionBlobs at h
    obtain ⟨tx,htx,h⟩ := bind_ok_iff.1 h
    obtain ⟨rest,hrest,h⟩ := bind_ok_iff.1 h
    cases h
    have hparsed : Transaction.fromBytes blob = .ok tx := mapError_ok_iff.1 htx
    have hspent := ih hrest
    unfold spentKeyImages at hspent ⊢
    rw [List.flatMap_cons, List.flatMap_cons, hspent, hparsed]

theorem WellSpent.mem_spentKeyImages {cx : Crypto} {b : MainBlock cx} (hb : WellSpent b) {k : Hash} :
    k ∈ b.images ↔ k ∈ spentKeyImages b.raw.transactions := by
  have hparsed := b.transactionsParsed
  unfold parseTransactions at hparsed
  obtain ⟨_,_,hblobs⟩ := bind_ok_iff.1 hparsed
  rw [hb.images, List.mem_reverse, MainBlock.spent, parseTransactionBlobs_spentKeyImages hblobs]

section

variable {cx : Crypto} {U : Set RawBlock} {cfg : Config} {checkpoints : Checkpoints}
  {s : ChainState} {chain chain' : MainChain cx} {k h : Hash}

theorem Sound.topIndex_succ (hsound : Sound U s chain) :
    s.poolChain.topIndex + 1 = chain.length := by
  have hpos := List.length_pos_iff.2 hsound.nonempty
  have htip : s.tip = some (chain.length - 1) := by
    rw [hsound.holds.tip]
    exact MainChain.tip_eq_some_iff.2 (by omega)
  change s.tip.getD 0 + 1 = _
  rw [htip, Option.getD_some]
  omega

variable (hkept : Kept U (Tracked cfg checkpoints) s chain)
include hkept

theorem Kept.not_spends
    (hk : s.poolChain.keyImageSpent k s.poolChain.topIndex = false) : ¬ chain.Spends k := by
  have hnone := hkept.inv.spends.keyImage_eq_none hkept.sound.topIndex_succ hk
  rintro ⟨b,hb,hkb⟩
  exact hkept.inv.spends.notMem_images hnone b hb hkb

theorem Kept.not_lists
    (hh : s.poolChain.transactionInChain h = false) : ¬ chain.Lists h := by
  rintro ⟨b,hb,hhb⟩
  obtain ⟨i,hi⟩ := List.getElem?_of_mem hb
  have hstore := (hkept.inv.spends.transactions h i).2 ⟨b,hi,hhb⟩
  simp [ChainState.poolChain, hstore] at hh

end

/-- The chain is the one on record and the pool holds nothing of it, except for what the
engine owes. -/
structure Agrees {cx : Crypto} (U : Set RawBlock) (cfg : Config) (checkpoints : Checkpoints)
    (poolCfg : PoolConfig) (n : SharedNode cx) (chain : MainChain cx) : Prop where
  kept : Kept U (fun s (chain : MainChain cx) => Tracked cfg checkpoints s chain) n.chain chain
  pool : n.pool.Consistent poolCfg
  images : ∀ k, n.pool.spends k = true → chain.Spends k → n.engine.Owes k
  hashes : n.engine.Sweeping ∨ ∀ h, n.pool.contains h = true → ¬ chain.Lists h

def SharedNode.AboveZone {cx : Crypto} (n : SharedNode cx) : Prop :=
  n.chain.checkpoints.isInCheckpointZone (n.chain.tip.getD 0 + 1) = false

instance {cx : Crypto} (n : SharedNode cx) : Decidable n.AboveZone := inferInstanceAs (Decidable (_ = _))

namespace Agrees

variable {cx : Crypto} {U : Set RawBlock} {cfg : Config} {checkpoints : Checkpoints}
  {poolCfg : PoolConfig} {n : SharedNode cx} {chain : MainChain cx}

section

variable (h : Agrees U cfg checkpoints poolCfg n chain)
include h

theorem of_pool {m : SharedNode cx} (hchain : m.chain = n.chain) (hengine : m.engine = n.engine)
    (hpool : m.pool.Consistent poolCfg)
    (himages : ∀ k, m.pool.spends k = true → n.pool.spends k = true ∨ ¬ chain.Spends k)
    (hhashes : ∀ x, m.pool.contains x = true → n.pool.contains x = true ∨ ¬ chain.Lists x) :
    Agrees U cfg checkpoints poolCfg m chain where
  kept := hchain ▸ h.kept
  pool := hpool
  images k hk hspent := by
    rw [hengine]
    exact h.images k ((himages k hk).resolve_right fun hnot => hnot hspent) hspent
  hashes := by
    rw [hengine]
    exact h.hashes.imp_right fun hclear x hx hlists =>
      hclear x ((hhashes x hx).resolve_right fun hnot => hnot hlists) hlists

theorem tick (now : Nat) : Agrees U cfg checkpoints poolCfg (n.tick now) chain :=
  h.of_pool rfl rfl (h.pool.congr rfl rfl rfl rfl rfl rfl rfl rfl rfl) (fun _ => .inl)
    (fun _ => .inl)

variable (hpercent : poolCfg.evictToPercent ≤ 100) (hzone : n.AboveZone)
include hpercent hzone

theorem addTransaction (blob : Bytes)
    (source : PoolSource) : Agrees U cfg checkpoints poolCfg (n.addTransaction blob source) chain := by
  refine h.of_pool rfl rfl (h.pool.add hpercent blob _ source) ?_ ?_
  · intro k hk
    exact ((entering_spends n.chain.poolChain hzone k).add hk).imp_right h.kept.not_spends
  · intro x hx
    exact ((entering_contains _ x).add hx).imp_right h.kept.not_lists

theorem engineStep :
    Agrees U cfg checkpoints poolCfg n.engineStep chain := by
  obtain ⟨rows,hd⟩ := h.pool.described
  have himages := h.images
  have hhashes := h.hashes
  unfold SharedNode.engineStep
  cases hengine : n.engine with
  | idle => exact h
  | checking raw report =>
    rw [hengine] at himages hhashes
    by_cases hempty : n.pool.hashes = []
    · -- an empty pool stands for no image and no transaction
      have hrows : rows = [] := by
        refine List.eq_nil_iff_forall_not_mem.2 fun r hr => ?_
        have hmem := hd.mem_hashes.2 (hd.contains_iff.2 ⟨r,hr,rfl⟩)
        rw [hempty] at hmem
        cases hmem
      subst hrows
      refine ⟨h.kept,h.pool,fun k hk => ?_,.inr fun x hx => ?_⟩
      · obtain ⟨r,hr,_⟩ := hd.spends_iff.1 hk
        cases hr
      · obtain ⟨r,hr,_⟩ := hd.contains_iff.1 hx
        cases hr
    · simp only [if_neg hempty]
      exact ⟨h.kept,h.pool,himages,.inl trivial⟩
  | mined raw report =>
    rw [hengine] at himages
    refine ⟨h.kept,h.pool.removeAll _,fun k hk hspent => ?_,.inr fun x hx => ?_⟩
    · obtain ⟨hheld,hkept⟩ := hd.onBlockAdded_spends hk
      exact (himages k hheld hspent).resolve_right hkept
    · exact h.kept.not_lists (hd.onBlockAdded_clear _ _ _ x hx)
  | switched raw report =>
    rw [hengine] at himages hhashes
    have hclear := hhashes.resolve_left id
    by_cases hswitched : report.outcome.status = .alternativeAndSwitched
    · simp only [if_pos hswitched]
      refine ⟨h.kept,(h.pool.rejected _).removeAll _,fun k hk hspent => ?_,.inr fun x hx => ?_⟩
      · exact h.kept.not_spends (hd.removeSpentInChain_spends hk).2 hspent
      · exact hclear x (contains_removeAll hx).1
    · simp only [if_neg hswitched]
      exact ⟨h.kept,h.pool,fun k hk hspent => hswitched (himages k hk hspent),.inr hclear⟩
  | unwound raw report =>
    rw [hengine] at himages hhashes
    have hclear := hhashes.resolve_left id
    dsimp only
    split
    · exact ⟨h.kept,h.pool,himages,.inr hclear⟩
    · refine ⟨h.kept,h.pool.copyTransactionsToPool hpercent _ _,fun k hk hspent => ?_,
        .inr fun x hx => ?_⟩
      · rcases (entering_spends n.chain.poolChain hzone k).copyTransactionsToPool hk
          with hheld | hfresh
        · exact himages k hheld hspent
        · exact h.kept.not_spends hfresh hspent
      · exact ((entering_contains _ x).copyTransactionsToPool hx).elim (hclear x)
          h.kept.not_lists
  | cleaning raw report =>
    rw [hengine] at himages hhashes
    have hclear := hhashes.resolve_left id
    refine ⟨h.kept,h.pool.clean _,fun k hk => ?_,.inr fun x hx => ?_⟩
    · exact himages k ((entering_spends n.chain.poolChain hzone k).clean hk)
    · exact hclear x ((entering_contains n.chain.poolChain x).clean hx)
  | describing description =>
    rw [hengine] at himages hhashes
    have hclear := hhashes.resolve_left id
    dsimp only
    split
    · exact ⟨h.kept,h.pool,himages,.inr hclear⟩
    · exact ⟨h.kept,h.pool,himages,.inr hclear⟩

end

section

variable (hU : UniqueIds cx U) (hT : UniqueTxIds cx U) (hfree : ReplayFree checkpoints U)
  (hserves : cfg.Serves)
include hU hT hfree hserves

theorem apply (h : Agrees U cfg checkpoints poolCfg n chain) {raw : RawBlock} (hknown : raw ∈ U)
    (now : Nat) : ∃ chain', Agrees U cfg checkpoints poolCfg (n.apply raw now) chain' := by
  unfold SharedNode.apply
  by_cases hidle : n.engine = .idle
  · rw [if_pos hidle]
    have himages := h.images
    have hhashes := h.hashes
    rw [hidle] at himages hhashes
    have hclear := hhashes.resolve_left id
    have hspec := addBlockDetailed_brings hU hT hfree hserves
      (h.kept.atClock now (h.kept.inv.atClock now)) hknown
    cases hrun : ChainState.addBlockDetailed cx raw (n.chain.atClock now) with
    | error e t =>
      obtain ⟨chain',hkept,hwithin⟩ := hspec.of_error_of_eq hrun
      refine ⟨chain',hkept,h.pool,?_,?_⟩
      · rw [hidle]
        exact fun k hk hspent => himages k hk (hwithin.spends k hspent)
      · rw [hidle]
        exact .inr fun x hx hlists => hclear x hx (hwithin.lists x hlists)
    | ok report t =>
      obtain ⟨chain',hkept,hbrings⟩ := hspec.of_ok_of_eq hrun
      refine ⟨chain',hkept,h.pool,?_,?_⟩
      · intro k hk hspent
        cases hstatus : report.outcome.status with
        | alternative =>
          rw [hbrings.alternative hstatus] at hspent
          exact (himages k hk hspent).elim
        | alternativeAndSwitched =>
          simp only [hstatus, reduceCtorEq, if_false]
          exact .inl hstatus
        | main =>
          obtain ⟨b,hraw,rfl⟩ := hbrings.main hstatus
          simp only [hstatus, reduceCtorEq, if_false]
          obtain ⟨c,hc,hkc⟩ := hspent
          rcases List.mem_append.1 hc with hold | hnew
          · exact (himages k hk ⟨c,hold,hkc⟩).elim
          · cases List.mem_singleton.1 hnew
            refine .inr ?_
            rw [← hraw]
            exact (hkept.inv.wellSpent b hc).mem_spentKeyImages.1 hkc
      · by_cases hstatus : report.outcome.status = .alternative
        · rw [hbrings.alternative hstatus]
          exact .inr hclear
        · simp only [if_neg hstatus]
          exact .inl trivial
  · rw [if_neg hidle]
    exact ⟨chain,h⟩

theorem submit (hpercent : poolCfg.evictToPercent ≤ 100)
    (h : Agrees U cfg checkpoints poolCfg n chain) {block : Bytes} {now : Nat}
    (hknown : ∀ raw, n.submitted block = some raw → raw ∈ U)
    (hzone : (n.submit block now).AboveZone) :
    ∃ chain', Agrees U cfg checkpoints poolCfg (n.submit block now) chain' := by
  unfold SharedNode.submit at hzone ⊢
  cases hraw : n.submitted block with
  | none => exact ⟨chain,h⟩
  | some raw =>
    rw [hraw] at hzone
    have hspec := addBlockDetailed_brings hU hT hfree hserves
      (h.kept.atClock now (h.kept.inv.atClock now)) (hknown raw hraw)
    unfold addBlockWithPool at hzone ⊢
    dsimp only at hzone ⊢
    cases hparsed : BlockTemplate.fromBytes raw.block with
    | error e => exact ⟨chain,h.kept.atClock now (h.kept.inv.atClock now),h.pool,h.images,h.hashes⟩
    | ok template =>
      rw [hparsed] at hzone
      dsimp only at hzone ⊢
      cases hrun : ChainState.addBlockDetailed cx raw (n.chain.atClock now) with
      | error e t =>
        obtain ⟨chain',hkept,hwithin⟩ := hspec.of_error_of_eq hrun
        exact ⟨chain',hkept,h.pool,fun k hk hspent => h.images k hk (hwithin.spends k hspent),
          h.hashes.imp_right fun hclear x hx hlists => hclear x hx (hwithin.lists x hlists)⟩
      | ok report t =>
        obtain ⟨chain',hkept,hbrings⟩ := hspec.of_ok_of_eq hrun
        rw [hrun] at hzone
        dsimp only at hzone ⊢
        by_cases halt : report.outcome.status = .alternative
        · simp only [if_pos halt]
          rw [hbrings.alternative halt] at hkept
          exact ⟨chain,hkept,h.pool,h.images,h.hashes⟩
        · simp only [if_neg halt] at hzone ⊢
          refine ⟨chain',hkept,h.pool.sweep hpercent _ _ _ _,fun k hk hspent => ?_,
            .inr fun x hx => hkept.not_lists (h.pool.sweep_clear hpercent _ _ _ _ x hx)⟩
          rcases h.pool.sweep_spends hpercent t.poolChain hzone hk with ⟨_,hfresh⟩ | ⟨hmain,hheld,hother⟩
          · exact absurd hspent (hkept.not_spends hfresh)
          · have hstatus : report.outcome.status = .main := by
              cases hs : report.outcome.status with
              | main => rfl
              | alternative => exact absurd hs halt
              | alternativeAndSwitched => exact absurd hs hmain
            obtain ⟨b,rfl,rfl⟩ := hbrings.main hstatus
            obtain ⟨c,hc,hkc⟩ := hspent
            rcases List.mem_append.1 hc with hold | hnew
            · exact h.images k hheld ⟨c,hold,hkc⟩
            · cases List.mem_singleton.1 hnew
              exact absurd ((hkept.inv.wellSpent b hc).mem_spentKeyImages.1 hkc) hother

end

theorem submitStep (h : Agrees U cfg checkpoints poolCfg n chain) (k : Nat) :
    Agrees U cfg checkpoints poolCfg (n.submitStep k) chain := by
  unfold SharedNode.submitStep
  split
  · exact h
  · split <;> exact ⟨h.kept,h.pool,h.images,h.hashes⟩

variable (hU : UniqueIds cx U) (hT : UniqueTxIds cx U) (hfree : ReplayFree checkpoints U)
  (hserves : cfg.Serves) (hpercent : poolCfg.evictToPercent ≤ 100)
  (h : Agrees U cfg checkpoints poolCfg n chain)
include hU hT hfree hserves hpercent h

theorem step {e : SharedEvent} (hknown : ∀ raw, n.offered e = some raw → raw ∈ U)
    (hzone : n.AboveZone) (hzone' : (n.step e).AboveZone) :
    ∃ chain', Agrees U cfg checkpoints poolCfg (n.step e) chain' := by
  cases e with
  | tick now => exact ⟨chain,h.tick now⟩
  | addTransaction blob source => exact ⟨chain,h.addTransaction hpercent hzone blob source⟩
  | apply raw now => exact h.apply hU hT hfree hserves (hknown raw rfl) now
  | engine => exact ⟨chain,h.engineStep hpercent hzone⟩
  | submit block now => exact h.submit hU hT hfree hserves hpercent hknown hzone'
  | submitStep k => exact ⟨chain,h.submitStep k⟩

/-- Along a run above the zone the pool agrees with the chain up to what the engine owes. -/
theorem run {events : List SharedEvent} (hknown : ∀ raw ∈ n.offers events, raw ∈ U)
    (hzone : ∀ before, before <+: events → (n.run before).AboveZone) :
    ∃ chain', Agrees U cfg checkpoints poolCfg (n.run events) chain' := by
  induction events generalizing n chain with
  | nil => exact ⟨chain,h⟩
  | cons e events ih =>
    obtain ⟨chain₁,h₁⟩ := h.step (e := e) hU hT hfree hserves hpercent
      (fun raw hraw => hknown raw (by simp [SharedNode.offers, hraw])) (hzone [] (by simp))
      (hzone [e] (by simp))
    exact ih h₁ (fun raw hraw => hknown raw (by simp [SharedNode.offers, hraw]))
      fun before hbefore => hzone (e :: before) (List.cons_prefix_cons.2 ⟨rfl,hbefore⟩)

end Agrees

theorem start_agrees {cx : Crypto} {cfg : Config} {checkpoints : Checkpoints} {clock : Nat}
    {s₀ : ChainState} {calls : List Call} {raws : List RawBlock}
    (hopen : ChainState.openOrGenesis cx cfg checkpoints clock = .ok ⟨⟩ s₀)
    (hU : UniqueIds cx (blocksOf cx raws)) (hT : UniqueTxIds cx (blocksOf cx raws))
    (hfree : ReplayFree checkpoints (blocksOf cx raws))
    (hknown : ∀ call ∈ calls, ∀ raw, call.raw? = some raw → raw ∈ raws) (poolCfg : PoolConfig) :
    ∃ chain, Agrees (blocksOf cx raws) cfg checkpoints poolCfg
      (SharedNode.start cx (runCalls cx calls s₀) poolCfg) chain := by
  obtain ⟨g,hg,hs⟩ := openOrGenesis_eq hopen
  have hgenesis := genesis_sound hg (hg.mem_blocksOf raws) hs
  have htracked : Tracked cfg checkpoints s₀ [g] := by
    rw [hs]
    exact genesis_tracked hg cfg checkpoints clock
  obtain ⟨chain,hstart⟩ := runCalls_kept hU (stable_tracked cfg hT hfree)
    (rewindable_tracked cfg checkpoints) (fun now h => h.atClock now)
    (fun call hcall raw hraw => .inl (hknown call hcall raw hraw)) ⟨hgenesis,htracked⟩
  exact ⟨chain,hstart,⟨rfl,⟨[],describes_new poolCfg⟩,Nat.zero_le _⟩,
    (nomatch ·,·),.inr (nomatch ·,·)⟩

/-- When no block is being applied, no pooled transaction is on the main chain and none
spends an image that the main chain has spent. -/
theorem pool_agrees_at_rest {cx : Crypto} {cfg : Config} {checkpoints : Checkpoints} {clock : Nat}
    {s₀ : ChainState} {calls : List Call} {poolCfg : PoolConfig} {events : List SharedEvent}
    {raws : List RawBlock} (hserves : cfg.Serves) (hpercent : poolCfg.evictToPercent ≤ 100)
    (hopen : ChainState.openOrGenesis cx cfg checkpoints clock = .ok ⟨⟩ s₀)
    (hraws : calls.filterMap Call.raw? ++
      (SharedNode.start cx (runCalls cx calls s₀) poolCfg).offers events = raws)
    (hU : UniqueIds cx (blocksOf cx raws)) (hT : UniqueTxIds cx (blocksOf cx raws))
    (hfree : ReplayFree checkpoints (blocksOf cx raws))
    (hzone : ∀ before, before <+: events →
      ((SharedNode.start cx (runCalls cx calls s₀) poolCfg).run before).AboveZone) :
    let n := (SharedNode.start cx (runCalls cx calls s₀) poolCfg).run events
    n.AtRest → ∃ chain : MainChain cx, Sound (blocksOf cx raws) n.chain chain ∧
      ∀ h e, n.pool.get h = some e → ∀ b ∈ chain, h ∉ b.txHashes ∧ ∀ k ∈ e.images, k ∉ b.spent := by
  intro n hrest
  obtain ⟨chain₀,hstart⟩ := start_agrees hopen hU hT hfree
    (fun call hcall raw hraw => by
      rw [← hraws]
      exact List.mem_append_left _ (List.mem_filterMap.2 ⟨call,hcall,hraw⟩)) poolCfg
  obtain ⟨chain,hchain⟩ := hstart.run hU hT hfree hserves hpercent
    (fun raw hraw => .inl (hraws ▸ List.mem_append_right _ hraw)) hzone
  have himages := hchain.images
  have hhashes := hchain.hashes
  rw [hrest.1] at himages hhashes
  obtain ⟨rows,hd⟩ := hchain.pool.described
  refine ⟨chain,hchain.kept.sound,fun h e he b hb => ?_⟩
  obtain ⟨r,hr,rfl,hhash⟩ := hd.get_iff.1 he
  constructor
  · intro hh
    exact hhashes.resolve_left id h (hd.contains_iff.2 ⟨r,hr,hhash⟩) ⟨b,hb,hh⟩
  · intro k hk hkb
    refine himages k (hd.spends_iff.2 ⟨r,hr,hk⟩) ⟨b,hb,?_⟩
    rw [(hchain.kept.inv.wellSpent b hb).images, List.mem_reverse]
    exact hkb

def sampleServing : Config :=
  ⟨true,0,none,2^32 - 1,256,false,defaultConfig.pruneDepth_ge,Nat.le_of_ble_eq_true rfl,
    defaultConfig.recentWindow_ge⟩

def samplePoolConfig : PoolConfig := {}

/-- The first block, below the checkpoint, creates two outputs; the second spends one of
them, the third is empty. -/
def samplePaid : List (BlockTemplate × List Transaction) :=
  sampleChain [(60,[sampleSpend 10000 0 100 (mixHash [3]),sampleSpend 10000 1 100 (mixHash [4])],200),
    (120,[sampleSpend 9900 0 100 (mixHash [5])],100),(180,[],0)]

def samplePaidZone : Checkpoints :=
  ⟨samplePaid.head?.toList.map fun b => (1,sampleId b.1),2^64 - 1⟩

def samplePaidCalls : List Call :=
  (sampleOffers 1000 (samplePaid.take 1)).map fun offer => .addBlock offer.1 offer.2

/-- Both outputs are spent in the pool. The engine applies the block that mines the one
spend, and the empty block is submitted. -/
def sampleSchedule : List SharedEvent :=
  [.tick 1000,.addTransaction (sampleBlob (sampleSpend 9900 0 100 (mixHash [5]))) .network,
    .addTransaction (sampleBlob (sampleSpend 9900 1 100 (mixHash [6]))) .network] ++
    ((sampleOffers 1000 ((samplePaid.drop 1).take 1)).flatMap fun offer =>
      .apply offer.2 offer.1 :: List.replicate 8 .engine) ++
    (sampleOffers 1000 (samplePaid.drop 2)).map (fun offer => .submit offer.2.block offer.1) ++
    List.replicate 8 (.submitStep 0)

theorem pool_agrees_at_rest_sample :
    let n := (SharedNode.start sampleCrypto (runCalls sampleCrypto samplePaidCalls
      (sampleNode sampleServing samplePaidZone 1000)) samplePoolConfig).run sampleSchedule
    (n.AtRest ∧ n.stream.length = 2 ∧ n.chain.tip = some 3 ∧
      n.pool.contains (sampleTxId (sampleSpend 9900 0 100 (mixHash [5]))) = false ∧
      n.pool.contains (sampleTxId (sampleSpend 9900 1 100 (mixHash [6]))) = true) ∧
    ∃ chain : MainChain sampleCrypto, HoldsChain n.chain chain ∧
      ∀ h e, n.pool.get h = some e → ∀ b ∈ chain, h ∉ b.txHashes ∧ ∀ k ∈ e.images, k ∉ b.spent := by
  intro n
  have hrest : n.AtRest ∧ n.stream.length = 2 ∧ n.chain.tip = some 3 ∧
      n.pool.contains (sampleTxId (sampleSpend 9900 0 100 (mixHash [5]))) = false ∧
      n.pool.contains (sampleTxId (sampleSpend 9900 1 100 (mixHash [6]))) = true := by
    decide +kernel
  refine ⟨hrest,?_⟩
  have hzone : ∀ before ∈ sampleSchedule.inits, ((SharedNode.start sampleCrypto
      (runCalls sampleCrypto samplePaidCalls (sampleNode sampleServing samplePaidZone 1000))
      samplePoolConfig).run before).AboveZone := by
    decide +kernel
  obtain ⟨chain,hsound,hclear⟩ := pool_agrees_at_rest ⟨rfl,rfl⟩ (by decide)
    (sampleNode_open sampleServing samplePaidZone 1000) rfl (by decide +kernel) (by decide +kernel)
    (by decide +kernel)
    (fun before hbefore => hzone before ((List.mem_inits _ _).2 hbefore)) hrest.1
  exact ⟨chain,hsound.holds,hclear⟩

end Wrkz
