import Wrkz.Chain.Pruning
import Wrkz.Chain.Refusal

/-!
The node with its branches. While the clock does not go back and a failed switch
can be undone, every call of `add_block` keeps the branches rooted in the main
chain; how it moves the tip and the branches is told apart here.
-/

set_option autoImplicit false

namespace Wrkz

open Library ChainState List

structure Grove {cx : Crypto} (cfg : Config) (checkpoints : Checkpoints) (now : Nat)
    (U : Set RawBlock) (s : ChainState) (chain : MainChain cx) : Prop where
  kept : Kept U (fun s (chain : MainChain cx) => Settled cfg checkpoints now s chain) s chain
  rooted : Rooted cfg checkpoints now s.altBlocks chain

structure Config.KeepsBodies (cfg : Config) : Prop where
  storeRawBlocks : cfg.storeRawBlocks = true
  liteStartHeight : cfg.liteStartHeight = 0
  pruneDepth : cfg.pruneDepth = none

/-- What a call of `add_block` does to the main chain and to the branches. -/
inductive Moves {cx : Crypto} (s : ChainState) (chain : MainChain cx) (t : ChainState) :
    MainChain cx → Prop where
  | stays (halts : t.altBlocks.SubsetOf s.altBlocks) : Moves s chain t chain
  | grows (b : MainBlock cx) (halts : t.altBlocks.SubsetOf s.altBlocks) :
      Moves s chain t (chain ++ [b])
  | keeps (hash : Hash) (alt : AltBlock)
      (hle : alt.info.cumulativeDifficulty ≤ s.mainCumulative)
      (halts : t.altBlocks.SubsetOf (s.altBlocks.insert hash alt)) : Moves s chain t chain
  | switches (p q bs : MainChain cx) (hash : Hash) (alt : AltBlock) (b : MainBlock cx)
      (hchain : chain = p ++ q) (hlast : (p ++ bs).getLast? = some b) (hinfo : b.info = alt.info)
      (hlt : s.mainCumulative < alt.info.cumulativeDifficulty)
      (halts : ∀ x a, t.altBlocks.lookup x = some a → (∃ c ∈ q, a.info = c.info) ∨
        (s.altBlocks.insert hash alt).lookup x = some a) : Moves s chain t (p ++ bs)
  /-- The switch was refused before it began. -/
  | waits (hash : Hash) (alt : AltBlock)
      (hwhy : ¬ s.cfg.KeepsBodies ∨ ∃ i, i < chain.length ∧ ¬ s.HasBody i)
      (halts : t.altBlocks.SubsetOf (s.altBlocks.insert hash alt)) : Moves s chain t chain

/-- Every state of the run, from before the first call to after the last. -/
def AllAlong (cx : Crypto) (P : ChainState → Prop) (calls : List Call) (s : ChainState) : Prop :=
  ∀ before ∈ calls.inits, P (runCalls cx before s)

instance (cx : Crypto) (P : ChainState → Prop) [DecidablePred P] (calls : List Call)
    (s : ChainState) : Decidable (AllAlong cx P calls s) :=
  inferInstanceAs (Decidable (∀ before ∈ calls.inits, P (runCalls cx before s)))

variable {P : ChainState → Prop} {s : ChainState} {cx : Crypto}

theorem AllAlong.of_append {calls after : List Call} (h : AllAlong cx P (calls ++ after) s) :
    AllAlong cx P calls s := by
  intro before hbefore
  refine h before ((mem_inits _ _).2 ?_)
  exact ((mem_inits _ _).1 hbefore).trans (prefix_append calls after)

theorem AllAlong.last {calls : List Call} (h : AllAlong cx P calls s) : P (runCalls cx calls s) :=
  h calls ((mem_inits _ _).2 (prefix_refl calls))

section

variable {cx : Crypto} {U : Set RawBlock} {cfg : Config} {checkpoints : Checkpoints}
  {now now' : Nat} {s t : ChainState} {chain p q bs : MainChain cx} {raw : RawBlock}
  {block : BlockTemplate} {hash : Hash} {alt : AltBlock} {b : MainBlock cx}
  {exclude : Option Hash}

namespace Grove

theorem atClock (h : Grove cfg checkpoints now U s chain) (hle : now ≤ now') :
    Grove cfg checkpoints now' U (s.atClock now') chain :=
  ⟨⟨h.kept.sound.atClock now',h.kept.inv.atClock hle⟩,h.rooted.mono hle⟩

variable (hT : UniqueTxIds cx U) (hfree : ReplayFree checkpoints U)
  (h : Grove cfg checkpoints now U s chain)
include hT hfree h

theorem cleared : Grove cfg checkpoints now U s.cleared chain :=
  ⟨h.kept.cleared (stable_settled cfg now hT hfree),h.rooted⟩

theorem pruned (exclude : Option Hash) : Grove cfg checkpoints now U (s.pruned exclude) chain := by
  refine ⟨h.kept.pruned (stable_settled cfg now hT hfree) exclude,?_⟩
  unfold ChainState.pruned
  cases s.tip with
  | none => exact h.rooted
  | some tip => exact h.rooted.prune tip exclude

end Grove

variable {parentAlt : Option Hash} {infos : List BlockInfo} {e : ChainError} {x : Hash}
  {branch : List Hash} {prev d fork : Nat} {info : BlockInfo}

theorem Sound.sees_branch (hsound : Sound U s chain) (hconf : Configured cfg checkpoints s)
    {fork : Nat} (hx : s.blockIndexByHash x = some fork) (infos : List BlockInfo) :
    Sees cfg checkpoints s (.withBranch fork infos)
      (MainChain.infos (chain.take (fork+1)) ++ infos) where
  configured := hconf
  infos i hi := by
    obtain ⟨c,hc,_⟩ := hsound.holds.toHoldsTables.blockIndexByHash_iff.1 hx
    have hlt := (List.getElem?_eq_some_iff.1 hc).1
    have hlen : (MainChain.infos (chain.take (fork+1))).length = fork + 1 := by
      simp [MainChain.infos]
      omega
    unfold infoInView
    by_cases hfork : fork < i
    · rw [if_pos (by exact hfork), getElem?_append_right (by omega), hlen]
      simp only [ChainView.withBranch, Nat.sub_sub]
    · rw [if_neg (by exact hfork), getElem?_append_left (by omega),
        hsound.holds.toHoldsTables.blockInfo_eq, MainChain.infos, getElem?_map,
        getElem?_take_of_lt (by omega)]

section

variable (hU : UniqueIds cx U) (hsound : Sound U s chain) (hconf : Configured cfg checkpoints s)
include hU hsound hconf

/-- What a block on a branch is checked against is the lineage of its parent. -/
theorem Sound.branch_lineage {y : Hash} {prev fork : Nat}
    (hlocated : s.locateParent y = .ok (Parent.ofBranch parentAlt prev))
    (hbranchInfos : s.branchInfos parentAlt prev = .ok (fork,infos)) :
    ∃ lineage, Lineage s.altBlocks chain y lineage ∧
      Sees cfg checkpoints s (.withBranch fork infos) lineage ∧ lineage.length - 1 = prev := by
  obtain ⟨branch,hbranch,hinfos⟩ := branchInfos_ok hlocated hbranchInfos
  obtain ⟨x,hx,_,hfollows,hnil,hlast⟩ := branchHashes_ok hbranch
  obtain ⟨c,hc,hcx⟩ := hsound.holds.toHoldsTables.blockIndexByHash_iff.1 hx
  have hlt := (List.getElem?_eq_some_iff.1 hc).1
  have hroot : Lineage s.altBlocks chain x (MainChain.infos (chain.take (fork+1))) := by
    rw [← hcx]
    exact .main hc
  have hplace : ∀ j y, branch[j]? = some y →
      ∃ alt, s.altBlocks.lookup y = some alt ∧ alt.index = fork + 1 + j :=
    fun j y hy => Follows.altIndex hU hsound.alts
      (hsound.linked.template_mem c (mem_of_getElem? hc)) (hcx ▸ c.hashed)
      (hsound.linked.height _ c hc) hfollows hy
  have hinfosLen : infos.length = branch.length := by
    rw [hinfos]
    refine filterMap_length_eq_length.2 ?_
    intro y hy
    obtain ⟨j,hj⟩ := getElem?_of_mem hy
    obtain ⟨alt,halt,_⟩ := hplace j y hj
    simp [halt]
  have hprev : prev = fork + branch.length := by
    cases parentAlt with
    | none =>
      simp only [branchInfos, Except.ok.injEq, Prod.mk.injEq] at hbranchInfos
      obtain ⟨rfl,rfl⟩ := hbranchInfos
      simp only [length_nil] at hinfosLen
      omega
    | some parent =>
      obtain ⟨_,alt,halt,hindex⟩ := locateParent_alternative hlocated
      have hne : branch ≠ [] := by
        intro hnone
        rw [← hnil hnone] at halt
        simp_all
      have hend := hlast hne
      rw [getLast?_eq_getElem?] at hend
      obtain ⟨alt',halt',hindex'⟩ := hplace _ _ hend
      rw [halt] at halt'
      cases halt'
      have := length_pos_iff.2 hne
      omega
  refine ⟨MainChain.infos (chain.take (fork+1)) ++ infos,?_,hsound.sees_branch hconf hx infos,?_⟩
  · cases hb : branch with
    | nil =>
      rw [← hnil hb, hinfos, hb]
      simpa using hroot
    | cons z rest =>
      have hne : branch ≠ [] := by simp [hb]
      rw [hinfos]
      exact hroot.of_follows hfollows (hlast hne)
  · simp only [MainChain.infos, length_append, length_map, length_take]
    omega

theorem PassedAlternative.lineage (hclock : s.clock ≤ now)
    (h : PassedAlternative cx s raw block hash prev parentAlt fork infos info d) :
    ∃ lineage, Lineage s.altBlocks chain block.previousBlockHash lineage ∧
      PassedOn cx cfg checkpoints now lineage raw hash info := by
  obtain ⟨lineage,hlineage,hsees,hlen⟩ := hsound.branch_lineage hU hconf h.located h.branchInfos
  refine ⟨lineage,hlineage,s,.withBranch fork infos,block,d,hsees,hclock,h.presented.parsed,?_⟩
  rw [hlen]
  exact h.passed

end

theorem Grove.withAlt (hU : UniqueIds cx U) (h : Grove cfg checkpoints now U s chain)
    (hpass : PassedAlternative cx s raw block hash prev parentAlt fork infos info d)
    (hkept : Kept U (Settled cfg checkpoints now)
      (s.withAlt hash (newAlt block raw prev info)) chain) :
    Grove cfg checkpoints now U (s.withAlt hash (newAlt block raw prev info)) chain := by
  obtain ⟨lineage,hlineage,hpassed⟩ := hpass.lineage hU h.kept.sound h.kept.inv.configured
    (Nat.le_of_eq h.kept.inv.clock)
  obtain ⟨hnotAlt,hnotMain⟩ := hasBlock_false hpass.presented.fresh
  refine ⟨hkept,h.rooted.insert hnotAlt ?_ hlineage hpassed⟩
  intro c hc heq
  obtain ⟨i,hi⟩ := getElem?_of_mem hc
  have := h.kept.sound.holds.toHoldsTables.blockIndexByHash_iff.2 ⟨c,hi,heq⟩
  rw [hnotMain] at this
  cases this

theorem Grove.push (h : Grove cfg checkpoints now U s chain)
    (hfresh : s.hasBlock b.info.blockHash = false)
    (hkept : Kept U (Settled cfg checkpoints now) (s.afterPush chain b) (chain ++ [b])) :
    Grove cfg checkpoints now U (s.afterPush chain b) (chain ++ [b]) :=
  ⟨hkept,h.rooted.push (hasBlock_false hfresh).1⟩

theorem MovedFrom.last {alts : AltBlocks} (h : List.Forall₂ (MovedFrom alts) branch bs)
    (hlast : branch.getLast? = some x) : ∃ b, bs.getLast? = some b ∧ MovedFrom alts x b := by
  have hlen := h.length_eq
  rw [List.getLast?_eq_getElem?] at hlast
  obtain ⟨hlt,hget⟩ := List.getElem?_eq_some_iff.1 hlast
  have hlt' : bs.length - 1 < bs.length := by omega
  refine ⟨bs[bs.length-1],by rw [List.getLast?_eq_getElem?, List.getElem?_eq_getElem hlt'],?_⟩
  have hpair := (forall₂_iff_get.1 h).2 (branch.length-1) hlt (by omega)
  simp only [get_eq_getElem, hget] at hpair
  simpa only [hlen] using hpair

theorem Sound.fork_last (hsound : Sound U s (p ++ q)) (hp : p ≠ [])
    (hx : s.blockIndexByHash x = some (p.length-1)) :
    ∃ c, p.getLast? = some c ∧ c.info.blockHash = x := by
  obtain ⟨c,hc,hcx⟩ := hsound.holds.toHoldsTables.blockIndexByHash_iff.1 hx
  have hlen := length_pos_iff.2 hp
  rw [getElem?_append_left (by omega)] at hc
  exact ⟨c,by rw [getLast?_eq_getElem?]; exact hc,hcx⟩

theorem Switched.grove (h : Grove cfg checkpoints now U (s.withAlt hash alt) (p ++ q))
    (hswitched : Switched cx U (Settled cfg checkpoints now)
      (s.withAlt hash alt) hash t p q bs branch) :
    Grove cfg checkpoints now U t (p ++ bs) ∧
      ∃ b, (p ++ bs).getLast? = some b ∧ b.info = alt.info := by
  obtain ⟨x,hx,hnone,hfollows,hnil,hlast⟩ := branchHashes_ok hswitched.branchEq
  obtain ⟨c,hc,hcx⟩ := h.kept.sound.fork_last hswitched.nonempty hx
  subst hcx
  have hheld : (s.withAlt hash alt).altBlocks.lookup hash = some alt := by
    simp [withAlt]
  have hne : branch ≠ [] := by
    intro hb
    rw [hnil hb, hheld] at hnone
    cases hnone
  have hcert := hswitched.kept.inv.certified
  have htables := h.kept.sound.holds.toHoldsTables
  refine ⟨⟨hswitched.kept,?_⟩,?_⟩
  · rw [hswitched.altBlocks]
    exact Rooted.switch htables h.kept.sound.linked hc h.kept.inv.certified h.rooted hswitched.built
      hfollows hcert
  · have hroot : Lineage (s.withAlt hash alt).altBlocks (p ++ q) c.info.blockHash
        (MainChain.infos p) := by
      obtain ⟨p',hp'⟩ := getLast?_eq_some_iff.1 hc
      rw [hp', MainChain.infos_append, append_assoc, singleton_append]
      exact Lineage.of_split c q
    obtain ⟨hmoved,_⟩ := built_moved htables h.rooted hswitched.built hswitched.nonempty hroot
      hfollows hcert
    obtain ⟨b,hb,a,ha,hinfo,_⟩ := MovedFrom.last hmoved (hlast hne)
    rw [hheld] at ha
    cases ha
    have hbs : bs ≠ [] := by
      intro hnil
      rw [hnil] at hb
      simp at hb
    exact ⟨b,by rw [getLast?_append_of_ne_nil _ hbs]; exact hb,hinfo⟩

theorem Config.KeepsBodies.bodyFloor_eq (h : cfg.KeepsBodies) (tip : Nat) :
    cfg.bodyFloor tip = some 0 := by
  simp [Config.bodyFloor, h.storeRawBlocks, h.pruneDepth, h.liteStartHeight]

theorem not_hasBody_of_rawBlock {i : Nat} (h : s.rawBlock i = none) :
    ¬ s.cfg.KeepsBodies ∨ ¬ s.HasBody i := by
  by_cases hkeeps : s.cfg.KeepsBodies
  · refine .inr ?_
    unfold rawBlock at h
    have hbody : s.cfg.keepsBody i (s.tip.getD i) = true := by
      simp [Config.keepsBody, hkeeps.storeRawBlocks, hkeeps.liteStartHeight, hkeeps.pruneDepth]
    rw [if_neg (by simp [hbody])] at h
    simp [ChainState.HasBody, h]
  · exact .inl hkeeps

/-- Wherever a switch to the branch fails, the blocks it applied come off again. -/
def Undoes (U : Set RawBlock) (cfg : Config) (s : ChainState) (chain : MainChain cx)
    (hash : Hash) : Prop :=
  ∀ (p q bs : MainChain cx) (v : ChainState) (done rest : List Hash) (failedAt : Hash),
    chain = p ++ q → p ≠ [] → Sound U v (p ++ bs) → done.length = bs.length →
    s.branchHashes hash = .ok (p.length-1,done ++ failedAt :: rest) →
    cfg.CanUndo bs.length q.length

theorem ChainState.CanUndoSwitch.undoes (hU : UniqueIds cx U) (hundo : s.CanUndoSwitch)
    (hcfg : s.cfg = cfg) (hfresh : s.hasBlock hash = false)
    (hsound : Sound U (s.withAlt hash alt) chain) : Undoes U cfg (s.withAlt hash alt) chain hash := by
  intro p q bs v done rest failedAt hchain hp _ hlen hbranch
  subst hchain
  rw [← hcfg, ← hlen]
  exact hundo.canUndo hU hfresh hsound hp hbranch

theorem SwitchFailed.grove (hundo : Undoes U cfg (s.withAlt hash alt) chain hash)
    (hbranch : ∃ r, (s.withAlt hash alt).branchHashes hash = .ok r)
    (h : Grove cfg checkpoints now U (s.withAlt hash alt) chain)
    (hfailed : SwitchFailed cx U (Settled cfg checkpoints now)
      (s.withAlt hash alt) chain hash e t) :
    Grove cfg checkpoints now U t chain ∧ Moves s chain t chain := by
  cases hfailed with
  | noBranch e herror =>
    obtain ⟨r,hr⟩ := hbranch
    rw [herror] at hr
    cases hr
  | belowFloor fork floor tip branch _ _ hfloor hlt =>
    refine ⟨h,.waits hash alt (.inl fun hkeeps => ?_) (.refl _)⟩
    have hfloor' : s.cfg.bodyFloor tip = some floor := hfloor
    rw [hkeeps.bodyFloor_eq tip] at hfloor'
    cases hfloor'
    omega
  | noBody fork i branch _ _ hi hnone =>
    refine ⟨h,.waits hash alt ?_ (.refl _)⟩
    exact (not_hasBody_of_rawBlock (s := s) hnone).imp_right fun hnot => ⟨i,hi,hnot⟩
  | undone p q bs done rest failedAt e e' v t w hchain hp hbodies hoff hgrew hbranch' hfloor hbuilt
      hkept' hsame href hback =>
    subst hchain
    have hundo' : cfg.CanUndo bs.length q.length :=
      hundo p q bs v done rest failedAt rfl hp hkept'.sound hbuilt.length_eq hbranch'
    obtain ⟨_,hundone⟩ := hback.undone hp h.kept hbodies hoff hgrew hfloor hkept' hsame href hundo'
    refine ⟨⟨hundone.kept,?_⟩,.stays ?_⟩
    · rw [hundone.altBlocks]
      exact h.rooted.dropSubtree failedAt
    · obtain ⟨x,_,_,hfollows,_,hlast⟩ := branchHashes_ok hbranch'
      have hgone := lookup_dropSubtree_of_branch hfollows (hlast (by simp))
      intro y a ha
      rw [hundone.altBlocks] at ha
      have hne : y ≠ hash := by
        intro heq
        rw [heq, hgone] at ha
        cases ha
      have hold := dropAll_lookup_some ha
      simp only [withAlt, AList.lookup_insert_ne hne] at hold
      exact hold

theorem Moves.of_cleared {chain' : MainChain cx} (h : Moves s.cleared chain t chain') :
    Moves s chain t chain' := by
  cases h with
  | stays halts => exact .stays halts
  | grows b halts => exact .grows b halts
  | keeps hash alt hle halts => exact .keeps hash alt hle halts
  | switches p q bs hash alt b hchain hlast hinfo hlt halts =>
    exact .switches p q bs hash alt b hchain hlast hinfo hlt halts
  | waits hash alt hwhy halts => exact .waits hash alt hwhy halts

theorem AddRefused.grove_of (hU : UniqueIds cx U) (h : Grove cfg checkpoints now U s chain)
    (hundo : ∀ hash alt, s.hasBlock hash = false → Sound U (s.withAlt hash alt) chain →
      Undoes U cfg (s.withAlt hash alt) chain hash)
    (href : AddRefused cx U (Settled cfg checkpoints now) s chain raw e t) :
    Grove cfg checkpoints now U t chain ∧ Moves s chain t chain := by
  cases href with
  | switch block hash prev d parentAlt fork infos info e t hpass hlt hkept hfailed =>
    obtain ⟨branch,hbranch,_⟩ := hpass.branchHashes
    exact hfailed.grove (hundo hash _ hpass.presented.fresh hkept.sound)
      ⟨_,branchHashes_withAlt (newAlt block raw prev info) hpass.presented.fresh hbranch⟩
      (h.withAlt hU hpass hkept)
  | unparsed | unhashed | held | orphan | main | noBranch | alternative =>
    exact ⟨h,.stays (.refl _)⟩

theorem AddRefused.grove (hU : UniqueIds cx U) (h : Grove cfg checkpoints now U s chain)
    (hundo : s.CanUndoSwitch)
    (href : AddRefused cx U (Settled cfg checkpoints now) s chain raw e t) :
    Grove cfg checkpoints now U t chain ∧ Moves s chain t chain :=
  href.grove_of hU h fun _ _ hfresh hsound => hundo.undoes hU h.kept.inv.configured.cfg hfresh hsound

theorem Grove.addBlock (hU : UniqueIds cx U) (hT : UniqueTxIds cx U)
    (hfree : ReplayFree checkpoints U) (h : Grove cfg checkpoints now U s chain)
    (hundo : s.CanUndoSwitch) (hknown : raw ∈ U) :
    ∃ chain', Grove cfg checkpoints now U (finalState (addBlock cx raw s)) chain' ∧
      Moves s chain (finalState (addBlock cx raw s)) chain' := by
  have hclear := h.cleared hT hfree
  refine Ensures.finalState (P := fun t => ∃ chain', Grove cfg checkpoints now U t chain' ∧
    Moves s chain t chain')
    ((addBlock_spec hU (stable_settled cfg now hT hfree) h.kept hknown).mono ?_ ?_)
  · rintro outcome t ⟨exclude,u,_,haccepted,rfl⟩
    cases haccepted with
    | main prev d b hpres hraw hprev hparent hcheck hkept =>
      have hnext := ((hclear.push hpres.fresh hkept).pruned hT hfree none).cleared hT hfree
      exact ⟨_,hnext,.grows b (pruned_subsetOf _ none)⟩
    | alternative block hash prev d parentAlt fork infos info hpass hle hkept =>
      have hnext := ((hclear.withAlt hU hpass hkept).pruned hT hfree (some hash)).cleared hT hfree
      exact ⟨_,hnext,.keeps hash (newAlt block raw prev info) hle (pruned_subsetOf _ (some hash))⟩
    | switched block hash prev d parentAlt fork infos info hpass hlt hkept t p q bs branch hchain
        hswitched =>
      subst hchain
      obtain ⟨hgrove,b,hb,hinfo⟩ := hswitched.grove (hclear.withAlt hU hpass hkept)
      refine ⟨_,(hgrove.pruned hT hfree (some hash)).cleared hT hfree,
        .switches p q bs hash (newAlt block raw prev info) b rfl hb hinfo hlt ?_⟩
      intro x a ha
      have hbefore := pruned_subsetOf _ (some hash) x a ha
      rw [hswitched.altBlocks] at hbefore
      rcases keepAlts_lookup_cases hbefore with ⟨q₁,c,q₂,hq,_,rfl⟩ | ⟨_,hold⟩
      · exact .inl ⟨c,by rw [hq]; simp,rfl⟩
      · exact .inr (dropAll_lookup_some hold)
  · intro e t hrefused
    have hundo' : s.cleared.CanUndoSwitch := hundo
    obtain ⟨hnext,hmoves⟩ := hrefused.grove hU hclear hundo'
    exact ⟨chain,hnext,hmoves.of_cleared⟩

theorem Grove.rewindTo (h : Grove cfg checkpoints now U s chain) (top : Nat) :
    ∃ chain' : MainChain cx,
      Grove cfg checkpoints now U (finalState (rewindTo cx top s)) chain' ∧
      (finalState (rewindTo cx top s) = s ∨ (finalState (rewindTo cx top s)).altBlocks = ∅) := by
  obtain ⟨chain',hkept,hcases⟩ := rewindTo_step (rewindable_settled cfg checkpoints now) h.kept top
  rcases hcases with ⟨hchain,hsame⟩ | ⟨_,hnone⟩
  · rw [hsame]
    exact ⟨chain,h,.inl rfl⟩
  · refine ⟨chain',⟨hkept,?_⟩,.inr hnone⟩
    rw [hnone]
    exact .empty

theorem genesis_grove {g : MainBlock cx} (hg : IsGenesis g) (cfg : Config)
    (checkpoints : Checkpoints) (clock : Nat) (raws : List RawBlock)
    (hs : s = (openEmpty cfg checkpoints clock).afterPush [] g) :
    Grove cfg checkpoints clock (blocksOf cx raws) s [g] := by
  have hsound := genesis_sound hg (hg.mem_blocksOf raws) hs
  subst hs
  exact ⟨⟨hsound,genesis_settled hg cfg checkpoints clock⟩,.empty⟩

theorem runCalls_concat (cx : Crypto) (calls : List Call) (call : Call) (s : ChainState) :
    runCalls cx (calls ++ [call]) s = call.run cx (runCalls cx calls s) := by
  simp [runCalls]

/-- The branches stay rooted along every run whose clock does not go back. -/
theorem runCalls_grove (hU : UniqueIds cx U) (hT : UniqueTxIds cx U)
    (hfree : ReplayFree checkpoints U) {calls : List Call}
    (hknown : ∀ call ∈ calls, ∀ raw, call.raw? = some raw → raw ∈ U)
    (hmono : (now :: calls.map Call.now).Pairwise (· ≤ ·))
    (hundo : AllAlong cx ChainState.CanUndoSwitch calls s)
    (h : Grove cfg checkpoints now U s chain) :
    ∃ chain' : MainChain cx, ∃ last ∈ now :: calls.map Call.now,
      Grove cfg checkpoints last U (runCalls cx calls s) chain' := by
  induction calls using reverseRecOn with
  | nil => exact ⟨chain,now,by simp,h⟩
  | append_singleton calls call ih =>
    rw [map_append, map_singleton, ← cons_append, pairwise_append] at hmono
    obtain ⟨chain',last,hlast,hgrove⟩ := ih
      (fun c hc => hknown c (mem_append_left _ hc)) hmono.1 hundo.of_append
    have hle : last ≤ call.now := hmono.2.2 last hlast call.now (by simp)
    have hnow := hgrove.atClock hle
    have hundo' : ((runCalls cx calls s).atClock call.now).CanUndoSwitch :=
      hundo.of_append.last
    rw [runCalls_concat]
    cases call with
    | addBlock at_ raw =>
      obtain ⟨chain'',hnext,_⟩ := hnow.addBlock hU hT hfree hundo'
        (hknown (.addBlock at_ raw) (by simp) raw rfl)
      exact ⟨chain'',at_,by simp [Call.now],hnext⟩
    | rewindTo at_ top =>
      obtain ⟨chain'',hnext,_⟩ := hnow.rewindTo top
      exact ⟨chain'',at_,by simp [Call.now],hnext⟩

end

end Wrkz
