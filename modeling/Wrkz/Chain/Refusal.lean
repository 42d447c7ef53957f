import Wrkz.Chain.Inverse
import Wrkz.Chain.Settled

/-!
A block that is refused. While the clock does not go back, the store after the
call is the store before it: a switch that fails half way puts back the chain it
took off. The block itself is not held either, unless it was the reorganisation
that was refused: then the branch stays, to be looked at again.
-/

set_option autoImplicit false

namespace Wrkz

open Library List

def ChainState.BranchesBelowTip (s : ChainState) : Prop :=
  ∀ x alt tip, s.altBlocks.lookup x = some alt → s.tip = some tip → alt.index ≤ tip

/-- Whichever branch a switch fails on, its blocks can be taken off again. -/
def ChainState.CanUndoSwitch (s : ChainState) : Prop :=
  (s.cfg.storeRawBlocks = true ∧ s.cfg.pruneDepth = none) ∨
    s.altBlocks.length ≤ s.cfg.unwindHistory ∨ s.BranchesBelowTip

def ChainError.RefusesReorganisation (e : ChainError) : Prop :=
  (∃ at_ floor, e = .rule (.reorganisationBelowBodyFloor at_ floor)) ∨
    ∃ i, e = .rule (.reorganisationUnavailable i)

def RawBlock.id? (cx : Crypto) (raw : RawBlock) : Option Hash :=
  match BlockTemplate.fromBytes raw.block with
  | .ok block => (block.hash cx).toOption
  | .error _ => none

structure NoTrace (cx : Crypto) (s t : ChainState) (raw : RawBlock) (e : ChainError) : Prop where
  tip : t.tip = s.tip
  records : SameRecords s t
  /-- On a node that prunes, bodies go when the branch rises above the old tip. -/
  bodies : s.cfg.pruneDepth = none ∨ s.BranchesBelowTip →
    ∀ i, t.store (.rawBlock i) = s.store (.rawBlock i)
  refs : ∀ i, s.BranchesBelowTip ∨ (s.cfg.pruneDepth = none ∧ s.HasBody i) →
    t.blockOutputRefs cx i = s.blockOutputRefs cx i
  held : ∀ id, raw.id? cx = some id → t.hasBlock id = s.hasBlock id ∨
    e.RefusesReorganisation ∧ t.store = s.store ∧ (t.altBlocks.lookup id).isSome = true

section

variable {cx : Crypto} {U : Set RawBlock} {cfg : Config} {checkpoints : Checkpoints} {now : Nat}
  {s t : ChainState} {chain p q : MainChain cx} {raw : RawBlock} {e : ChainError}
  {block : BlockTemplate} {hash : Hash} {alt : AltBlock}

variable {done rest : List Hash} {failedAt : Hash} {i : Nat}

theorem HoldsTables.blockOutputRefs_congr (hs : HoldsTables s chain) (ht : HoldsTables t chain)
    (hknows : t.KnowsRefs i ↔ s.KnowsRefs i) : t.blockOutputRefs cx i = s.blockOutputRefs cx i := by
  by_cases hi : s.KnowsRefs i
  · have hlt : i < chain.length := hi.elim hs.hasRefs_lt hs.hasBody_lt
    have hsplit : chain = chain.take i ++ chain.get ⟨i,hlt⟩ :: chain.drop (i+1) := by
      rw [get_eq_getElem, ← drop_eq_getElem_cons hlt, take_append_drop]
    have hlen : (chain.take i).length = i := by simp; omega
    have hrefs : ∀ {v : ChainState}, HoldsTables v chain → v.KnowsRefs i →
        v.blockOutputRefs cx i =
          .ok (some (MainChain.refsOn (chain.take i) (chain.get ⟨i,hlt⟩))) := by
      intro v hv hk
      rw [hsplit] at hv
      have := hv.blockOutputRefs_of_knowsRefs (by rw [hlen]; exact hk)
      rw [hlen] at this
      exact this
    rw [hrefs hs hi, hrefs ht (hknows.2 hi)]
  · rw [blockOutputRefs_of_not_knowsRefs hi, blockOutputRefs_of_not_knowsRefs fun h => hi (hknows.1 h)]

theorem NoTrace.of_store (hs : HoldsChain s chain) (hstore : t.store = s.store)
    (ht : HoldsChain t chain)
    (hheld : ∀ id, raw.id? cx = some id → t.hasBlock id = s.hasBlock id ∨
      e.RefusesReorganisation ∧ t.store = s.store ∧ (t.altBlocks.lookup id).isSome = true) :
    NoTrace cx s t raw e where
  tip := ht.tip.trans hs.tip.symm
  records key _ := by rw [hstore]
  bodies _ i := by rw [hstore]
  refs i _ := by
    refine hs.toHoldsTables.blockOutputRefs_congr ht.toHoldsTables ?_
    unfold ChainState.KnowsRefs
    rw [hstore]
  held := hheld

theorem HoldsTables.rawBlock_congr (hs : HoldsTables s chain) (ht : HoldsTables t chain)
    (hiff : t.HasBody i ↔ s.HasBody i) : t.store (.rawBlock i) = s.store (.rawBlock i) := by
  cases hraw : s.store (.rawBlock i) with
  | none =>
    have hnot : ¬ t.HasBody i := by
      rw [hiff]
      simp [ChainState.HasBody, hraw]
    simpa [ChainState.HasBody] using hnot
  | some r =>
    have hbody : t.HasBody i := hiff.2 (by simp [ChainState.HasBody, hraw])
    obtain ⟨r',hraw'⟩ := Option.isSome_iff_exists.1 hbody
    obtain ⟨b,hb,rfl⟩ := hs.rawBlocks i r hraw
    obtain ⟨b',hb',rfl⟩ := ht.rawBlocks i r' hraw'
    rw [hb] at hb'
    cases hb'
    exact hraw'

theorem lookup_dropSubtree_of_branch {alts : AltBlocks} {x failedAt : Hash}
    (hfollows : Follows alts x (done ++ failedAt :: rest))
    (hlast : (done ++ failedAt :: rest).getLast? = some hash) :
    (alts.dropSubtree failedAt).lookup hash = none := by
  classical
  rw [AltBlocks.dropSubtree_lookup, if_pos]
  have hmem : hash ∈ failedAt :: rest := by
    rw [getLast?_append_of_ne_nil _ (by simp)] at hlast
    exact mem_of_getLast? hlast
  have hrest : ∃ y, Follows alts y (failedAt :: rest) := by
    clear hlast hmem
    induction done generalizing x with
    | nil => exact ⟨x,hfollows⟩
    | cons d done ih => exact ih hfollows.2
  obtain ⟨y,_,hrest⟩ := hrest
  rcases mem_cons.1 hmem with rfl | hmem
  · exact .root
  · exact AltBlocks.Descends.of_follows .root hrest hmem

theorem ChainState.lookup_withAlt_self (s : ChainState) (hash : Hash) (alt : AltBlock) :
    (s.withAlt hash alt).altBlocks.lookup hash = some alt := by
  simp [ChainState.withAlt]

variable (hU : UniqueIds cx U)
include hU

/-- The blocks of a branch stand one above the other from the fork on. -/
theorem branch_place (hsound : Sound U (s.withAlt hash alt) (p ++ q)) (hp : p ≠ [])
    {branch : List Hash}
    (hbranch : (s.withAlt hash alt).branchHashes hash = .ok (p.length-1,branch)) {j : Nat} {y : Hash}
    (hy : branch[j]? = some y) :
    ∃ alt', (s.withAlt hash alt).altBlocks.lookup y = some alt' ∧ alt'.index = p.length + j := by
  obtain ⟨x,hx,_,hfollows,_⟩ := branchHashes_ok hbranch
  obtain ⟨p',q',c,hchain,hplen,hc,hcx⟩ := hsound.fork_split hx
  have hlen := length_pos_iff.2 hp
  have hmem : c ∈ p ++ q := by
    rw [hchain]
    exact mem_append_left _ (mem_of_getLast? hc)
  have hget : (p ++ q)[p.length-1]? = some c := by
    rw [hchain, getElem?_append_left (by omega), ← hc, getLast?_eq_getElem?]
    congr 1
    omega
  obtain ⟨alt',halt',hindex⟩ := Follows.altIndex hU hsound.alts
    (hsound.linked.template_mem c hmem) (hcx ▸ c.hashed) (hsound.linked.height _ c hget)
    hfollows hy
  exact ⟨alt',halt',by omega⟩

theorem branch_length (hsound : Sound U (s.withAlt hash alt) (p ++ q)) (hp : p ≠ [])
    {branch : List Hash} (hne : branch ≠ [])
    (hbranch : (s.withAlt hash alt).branchHashes hash = .ok (p.length-1,branch)) :
    p.length + branch.length = alt.index + 1 := by
  obtain ⟨_,_,_,_,_,hlast⟩ := branchHashes_ok hbranch
  have hend := hlast hne
  rw [getLast?_eq_getElem?] at hend
  obtain ⟨alt',halt',hindex⟩ := branch_place hU hsound hp hbranch hend
  rw [s.lookup_withAlt_self] at halt'
  cases halt'
  have := length_pos_iff.2 hne
  omega

/-- A branch that fails half way has as many blocks on the chain as it had places
below the failed one. -/
theorem branch_below_tip (hsound : Sound U (s.withAlt hash alt) (p ++ q)) (hp : p ≠ [])
    (hlow : s.BranchesBelowTip)
    (hbranch : (s.withAlt hash alt).branchHashes hash = .ok (p.length-1,done ++ failedAt :: rest)) :
    done.length ≤ q.length := by
  cases hdone : done.length with
  | zero => omega
  | succ n =>
    have hn : n < (done ++ failedAt :: rest).length := by simp; omega
    obtain ⟨alt',halt',hindex⟩ := branch_place hU hsound hp hbranch (getElem?_eq_getElem hn)
    -- the offered block is the last of the branch, so this one was held before
    have hne : (done ++ failedAt :: rest)[n] ≠ hash := by
      intro heq
      have hlength := branch_length hU hsound hp (by simp) hbranch
      rw [heq, s.lookup_withAlt_self] at halt'
      cases halt'
      simp only [length_append, length_cons] at hlength
      omega
    have hlen := length_pos_iff.2 hp
    have htip : s.tip = some ((p ++ q).length - 1) := by
      have hwith : s.tip = (s.withAlt hash alt).tip := rfl
      rw [hwith, hsound.holds.tip]
      exact MainChain.tip_eq_some_iff.2 (by simp; omega)
    have hold : s.altBlocks.lookup (done ++ failedAt :: rest)[n] = some alt' := by
      rw [← halt']
      exact (AList.lookup_insert_ne hne).symm
    have hle := hlow _ alt' _ hold htip
    simp only [length_append] at hle
    omega

theorem ChainState.CanUndoSwitch.canUndo (hfresh : s.hasBlock hash = false)
    (hsound : Sound U (s.withAlt hash alt) (p ++ q)) (hp : p ≠ []) (hundo : s.CanUndoSwitch)
    (hbranch : (s.withAlt hash alt).branchHashes hash = .ok (p.length-1,done ++ failedAt :: rest)) :
    s.cfg.CanUndo done.length q.length := by
  rcases hundo with hkeeps | hshort | hbelow
  · exact .inl hkeeps
  · have hle := branchHashes_length hbranch
    rw [length_withAlt alt hfresh] at hle
    simp only [length_append, length_cons] at hle
    exact .inr (.inl (by omega))
  · exact .inr (.inr (branch_below_tip hU hsound hp hbelow hbranch))

theorem SwitchFailed.noTrace (hs : HoldsChain s chain) (hpres : Presented cx s raw block hash)
    (hundo : s.CanUndoSwitch) (hbranch : ∃ r, (s.withAlt hash alt).branchHashes hash = .ok r)
    (hkept : Kept U (Settled cfg checkpoints now) (s.withAlt hash alt) chain)
    (h : SwitchFailed cx U (Settled cfg checkpoints now) (s.withAlt hash alt) chain hash e t) :
    NoTrace cx s t raw e := by
  have hid : ∀ id, raw.id? cx = some id → id = hash := by
    intro id hid
    simp only [RawBlock.id?, hpres.parsed, hpres.hashed] at hid
    exact (Option.some.inj hid).symm
  have hheld : ((s.withAlt hash alt).altBlocks.lookup hash).isSome = true := by
    rw [s.lookup_withAlt_self]
    rfl
  cases h with
  | noBranch e herror =>
    obtain ⟨r,hr⟩ := hbranch
    rw [herror] at hr
    cases hr
  | belowFloor fork floor tip branch _ _ _ _ =>
    refine .of_store hs rfl hkept.sound.holds ?_
    intro id hraw
    rw [hid id hraw]
    exact .inr ⟨.inl ⟨_,_,rfl⟩,rfl,hheld⟩
  | noBody fork i branch _ _ _ _ =>
    refine .of_store hs rfl hkept.sound.holds ?_
    intro id hraw
    rw [hid id hraw]
    exact .inr ⟨.inr ⟨_,rfl⟩,rfl,hheld⟩
  | undone p q bs done rest failedAt e e' v t w hchain hp hbodies hoff hgrew hbranch hfloor hbuilt
      hkept' hsame href hback =>
    subst hchain
    have hlen := hbuilt.length_eq
    have hcfg : s.cfg = cfg := hkept.inv.configured.cfg
    have hlow : s.BranchesBelowTip → bs.length ≤ q.length := by
      intro hlow
      rw [← hlen]
      exact branch_below_tip hU hkept.sound hp hlow hbranch
    have hundo' : cfg.CanUndo bs.length q.length := by
      rw [← hcfg, ← hlen]
      exact hundo.canUndo hU hpres.fresh hkept.sound hp hbranch
    obtain ⟨rfl,hundone⟩ := hback.undone hp hkept hbodies hoff hgrew hfloor hkept' hsame href hundo'
    have hbodies' : s.cfg.pruneDepth = none ∨ s.BranchesBelowTip →
        ∀ i, t.HasBody i ↔ s.HasBody i := by
      intro hcase
      rw [hcfg] at hcase
      exact hundone.bodies (hcase.imp_right hlow)
    have hnode := hkept.inv.nodeAt hkept.sound
    have hnode' := hundone.kept.inv.nodeAt hundone.kept.sound
    constructor
    · exact hundone.kept.sound.holds.tip.trans hs.tip.symm
    · refine (hs.toHoldsTables.sameRecords_iff hundone.kept.sound.holds.toHoldsTables).2 ⟨?_,?_⟩
      · exact hnode.keyImage_eq hnode'
      · exact hnode.transactionIndex_eq hnode'
    · intro hcase i
      exact hs.toHoldsTables.rawBlock_congr hundone.kept.sound.holds.toHoldsTables
        (hbodies' hcase i)
    · intro i hcase
      refine hs.toHoldsTables.blockOutputRefs_congr hundone.kept.sound.holds.toHoldsTables ?_
      rcases hcase with hbelow | ⟨hprune,hbody⟩
      · by_cases hi : i < p.length
        · exact or_congr (hundone.refs (hlow hbelow) i hi) (hbodies' (.inr hbelow) i)
        · -- from the fork on every body was there
          have hiff : ∀ v : ChainState, HoldsTables v (p ++ q) → (v.HasBody i ↔ s.HasBody i) →
              (v.KnowsRefs i ↔ i < (p ++ q).length) := by
            intro v hv hvs
            constructor
            · intro hk
              exact hk.elim hv.hasRefs_lt hv.hasBody_lt
            · intro hlt
              exact .inr (hvs.2 (hbodies i (by omega) hlt))
          rw [hiff t hundone.kept.sound.holds.toHoldsTables (hbodies' (.inr hbelow) i),
            hiff s hs.toHoldsTables Iff.rfl]
      · have hbody' := (hbodies' (.inl hprune) i).2 hbody
        exact ⟨fun _ => .inr hbody,fun _ => .inr hbody'⟩
    · intro id hraw
      rw [hid id hraw]
      left
      obtain ⟨x,_,_,hfollows,_,hlast⟩ := branchHashes_ok hbranch
      have hgone := lookup_dropSubtree_of_branch hfollows (hlast (by simp))
      have hmain : t.blockIndexByHash hash = none := by
        have hsnone := (hasBlock_false hpres.fresh).2
        refine Option.eq_none_iff_forall_ne_some.2 fun i hi => ?_
        have := (hundone.kept.sound.holds.toHoldsTables.blockIndexByHash_iff).1 hi
        rw [(hs.toHoldsTables.blockIndexByHash_iff).2 this] at hsnone
        cases hsnone
      rw [hpres.fresh]
      simp [ChainState.hasBlock, hundone.altBlocks, hgone, hmain]

theorem AddRefused.noTrace (hundo : s.CanUndoSwitch)
    (h : Kept U (Settled cfg checkpoints now) s chain)
    (href : AddRefused cx U (Settled cfg checkpoints now) s chain raw e t) :
    NoTrace cx s t raw e := by
  cases href with
  | switch block hash prev d parentAlt fork infos info e t hpass hlt hkept hfailed =>
    obtain ⟨branch,hbranch,_⟩ := hpass.branchHashes
    exact hfailed.noTrace hU h.sound.holds hpass.presented hundo
      ⟨_,branchHashes_withAlt (newAlt block raw prev info) hpass.presented.fresh hbranch⟩ hkept
  | unparsed | unhashed | held | orphan | main | noBranch | alternative =>
    exact .of_store h.sound.holds rfl h.sound.holds fun _ _ => .inl rfl

end

/-- After every run whose clock does not go back, a call of `add_block` that
returns an error leaves no trace. -/
theorem addBlock_error_noTrace {cx : Crypto} {cfg : Config} {checkpoints : Checkpoints}
    {clock now : Nat} {s₀ t : ChainState} {calls : List Call} {raw : RawBlock} {e : ChainError}
    (hopen : ChainState.openOrGenesis cx cfg checkpoints clock = .ok ⟨⟩ s₀)
    (hU : UniqueIds cx (blocksOf cx (raw :: calls.filterMap Call.raw?)))
    (hT : UniqueTxIds cx (blocksOf cx (raw :: calls.filterMap Call.raw?)))
    (hfree : ReplayFree checkpoints (blocksOf cx (raw :: calls.filterMap Call.raw?)))
    (hclock : (clock :: (calls.map Call.now ++ [now])).Pairwise (· ≤ ·))
    (hundo : (runCalls cx calls s₀).CanUndoSwitch)
    (herror : ChainState.addBlock cx raw ((runCalls cx calls s₀).atClock now) = .error e t) :
    NoTrace cx (runCalls cx calls s₀) t raw e := by
  obtain ⟨g,hg,hs⟩ := openOrGenesis_eq hopen
  have hsound := genesis_sound hg (hg.mem_blocksOf (raw :: calls.filterMap Call.raw?)) hs
  subst hs
  rw [← List.cons_append, List.pairwise_append] at hclock
  obtain ⟨chain,last,hlast,hkept⟩ := runCalls_kept_of_clock hU
    (fun now => stable_settled cfg now hT hfree)
    (fun now => rewindable_settled cfg checkpoints now)
    (fun hle h => h.atClock hle)
    (fun call hcall raw' hraw' => .inl (List.mem_cons_of_mem _
      (List.mem_filterMap.2 ⟨call,hcall,hraw'⟩))) hclock.1
    ⟨hsound,genesis_settled hg cfg checkpoints clock⟩
  have hle : last ≤ now := hclock.2.2 last hlast now (by simp)
  have hnow : Kept _ (fun s (chain : MainChain cx) => Settled cfg checkpoints now s chain)
      ((runCalls cx calls _).atClock now) chain := ⟨hkept.sound.atClock now,hkept.inv.atClock hle⟩
  have hstable := stable_settled cfg now hT hfree
  have hspec := addBlock_spec hU hstable hnow (.inl List.mem_cons_self)
  have hrefused := hspec.of_error_of_eq herror
  have hundo' : ((runCalls cx calls _).atClock now).cleared.CanUndoSwitch := hundo
  have htrace := hrefused.noTrace hU hundo' (hnow.cleared hstable)
  have hcleared := (hnow.cleared hstable).sound.holds.toHoldsTables
  refine ⟨htrace.tip,htrace.records,htrace.bodies,fun i hi => ?_,htrace.held⟩
  rw [htrace.refs i hi]
  exact hkept.sound.holds.toHoldsTables.blockOutputRefs_congr hcleared Iff.rfl

/-- A branch that is followed at its third block, which spends an output that does
not exist. -/
def sampleBadBranch : List (BlockTemplate × List Transaction) :=
  sampleChain [(61,[],0),(61,[],0),(61,[sampleSpend 10000 99 100 (mixHash [3])],100)]

def sampleBeforeBad : List Call :=
  (sampleMain ++ sampleOffers 1000 (sampleBadBranch.take 2)).map fun offer =>
    Call.addBlock offer.1 offer.2

def sampleBad : RawBlock := sampleBadBranch.getLast?.elim ⟨[],[]⟩ fun b => sampleRaw b.1 b.2

/-- The switch to the bad branch fails at its third block. -/
theorem addBlock_error_noTrace_sample :
    let s := runCalls sampleCrypto sampleBeforeBad (sampleNode {} .none 1000)
    ∃ e t, ChainState.addBlock sampleCrypto sampleBad (s.atClock 1000) = .error e t ∧
      s.altBlocks.length = 2 ∧ t.altBlocks.length = 2 ∧ NoTrace sampleCrypto s t sampleBad e := by
  intro s
  obtain ⟨e,t,herror,hbefore,hafter⟩ : ∃ e t,
      ChainState.addBlock sampleCrypto sampleBad (s.atClock 1000) = .error e t ∧
        s.altBlocks.length = 2 ∧ t.altBlocks.length = 2 :=
    Ensures.exists_error (by decide +kernel)
  refine ⟨e,t,herror,hbefore,hafter,?_⟩
  exact addBlock_error_noTrace (sampleNode_open {} .none 1000) (by decide +kernel)
    (by decide +kernel) (.of_noZone _ Checkpoints.none_isInCheckpointZone) (by decide +kernel)
    (.inl ⟨by decide +kernel,by decide +kernel⟩) herror

theorem Config.pruneDepth_ge_of_none : ∀ d, (none : Option Nat) = some d → minPruneDepth ≤ d := by
  simp

theorem Config.defaultHistory_ge : minPruneDepth ≤ 512 := by decide

theorem Config.defaultWindow_ge : cryptonoteRewardBlocksWindow ≤ 256 := by decide

def sampleLite : Config where
  liteStartHeight := 3
  pruneDepth := none
  pruneDepth_ge := Config.pruneDepth_ge_of_none
  unwindHistory_ge := Config.defaultHistory_ge
  recentWindow_ge := Config.defaultWindow_ge

/-- The main chain and the first two blocks of the branch that stands still. -/
def sampleBeforeStill : List Call :=
  (sampleMain ++ sampleHeavyBranch.take 2).map fun offer => Call.addBlock offer.1 offer.2

def sampleHeavy : RawBlock := sampleStill.getLast?.elim ⟨[],[]⟩ fun b => sampleRaw b.1 b.2

/-- A lite node refuses to follow the heavier branch below its height, and holds the
block it refused. -/
theorem addBlock_error_holds :
    let s := runCalls sampleCrypto sampleBeforeStill (sampleNode sampleLite .none 1000)
    ∃ e t, ChainState.addBlock sampleCrypto sampleHeavy (s.atClock 1000) = .error e t ∧
      e = .rule (.reorganisationBelowBodyFloor 1 3) ∧
      ∃ id, sampleHeavy.id? sampleCrypto = some id ∧ s.hasBlock id = false ∧
        t.hasBlock id = true := by
  intro s
  obtain ⟨e,t,herror,hrule,hheld⟩ : ∃ e t,
      ChainState.addBlock sampleCrypto sampleHeavy (s.atClock 1000) = .error e t ∧
        e = .rule (.reorganisationBelowBodyFloor 1 3) ∧
        (sampleHeavy.id? sampleCrypto).any fun id => !s.hasBlock id && t.hasBlock id :=
    Ensures.exists_error (by decide +kernel)
  cases hid : sampleHeavy.id? sampleCrypto with
  | none =>
    rw [hid] at hheld
    cases hheld
  | some id =>
    rw [hid] at hheld
    exact ⟨e,t,herror,hrule,id,rfl,by simpa using hheld⟩

end Wrkz
