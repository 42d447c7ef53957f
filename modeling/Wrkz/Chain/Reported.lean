import Wrkz.Chain.Grove
import Wrkz.Chain.Indexed
import Wrkz.Chain.Spends

/-!
What `add_block` reports of a switch. The blocks that left the main chain are listed from
the top down and the last of them stands right above the fork: no block held on a branch
has the tip for its parent, so a switch always takes at least one block off.
-/

set_option autoImplicit false

namespace Wrkz

open Library ChainState List

namespace ChainState

variable {cx : Crypto} {s t : ChainState}

theorem collectUnwound_indexes {indexes : List Nat} {unwound : List UnwoundRaw}
    (h : s.collectUnwound indexes = .ok unwound) : unwound.map UnwoundRaw.index = indexes := by
  induction indexes generalizing unwound with
  | nil =>
    cases h
    rfl
  | cons index rest ih =>
    unfold collectUnwound at h
    obtain ⟨info,_,h⟩ := bind_ok_iff.1 h
    obtain ⟨raw,_,h⟩ := bind_ok_iff.1 h
    obtain ⟨later,hlater,h⟩ := bind_ok_iff.1 h
    cases h
    rw [map_cons, ih hlater]

theorem keepTail_indexes (tail : List UnwoundRaw) (s : ChainState) :
    Ensures (keepTail tail) s (fun _ t => t.unwound.map UnwoundBlock.index =
      s.unwound.map UnwoundBlock.index ++ tail.map UnwoundRaw.index) fun _ _ => True := by
  induction tail generalizing s with
  | nil => exact Ensures.pure (by simp)
  | cons u tail ih =>
    unfold keepTail
    refine ensures_liftExcept_bind (fun block _ => ?_) fun _ _ => trivial
    refine Ensures.modify_bind ((ih _).mono ?_ fun _ _ _ => trivial)
    intro _ t ht
    rw [ht]
    simp

end ChainState

section

variable {cx : Crypto} {U : Set RawBlock} {I : ChainState → MainChain cx → Prop}
  {s t : ChainState} {chain p q bs : MainChain cx} {hash : Hash} {branch : List Hash}

theorem switchTo_unwound (hU : UniqueIds cx U) (hI : Stable U I) (h : Kept U I s (p ++ q))
    (hp : p ≠ []) (hbranch : s.branchHashes hash = .ok (p.length-1,branch)) :
    Ensures (switchTo cx hash) s
      (fun _ t => t.unwound.map UnwoundBlock.index =
        s.unwound.map UnwoundBlock.index ++ (range' p.length q.length).reverse)
      fun _ _ => True := by
  have hlen := length_pos_iff.2 hp
  have htip : s.tip = some (p.length - 1 + q.length) := by
    rw [h.sound.holds.tip]
    refine MainChain.tip_eq_some_iff.2 ?_
    rw [length_append]
    omega
  obtain ⟨x,hx,_,hfollows,_,_⟩ := branchHashes_ok hbranch
  obtain ⟨c,hlast,rfl⟩ := h.sound.fork_last hp hx
  unfold switchTo
  refine Ensures.get_bind (ensures_liftExcept_bind (fun r hr => ?_) fun _ _ => trivial)
  rw [hbranch] at hr
  cases hr
  refine ensures_liftExcept_bind (fun tip hr => ?_) fun _ _ => trivial
  rw [htip] at hr
  cases hr
  refine ensures_liftExcept_bind (fun _ _ => ?_) fun _ _ => trivial
  have hindexes : range' (p.length-1+1) (p.length - 1 + q.length - (p.length-1)) =
      range' p.length q.length := by
    congr 1 <;> omega
  rw [hindexes]
  unfold exchangeTail
  refine ensures_liftExcept_bind (fun unwound hunwound => ?_) fun _ _ => trivial
  refine Ensures.bind ((unwindAll_spec hI hp q h).mono (fun _ _ hq => hq) fun _ _ _ => trivial) ?_
  rintro ⟨⟩ t ⟨_,hkept,hsame⟩
  refine Ensures.bind ((applyBranch_spec hU hI branch 0 c hkept hlast
    (by rw [hsame.altBlocks]; exact hfollows)).mono (fun _ _ hq => hq) fun _ _ _ => trivial) ?_
  rintro ⟨applied,failure⟩ u ⟨bs,_,hsame',_,_,_⟩
  cases failure with
  | some failure => exact ensures_rollBack _ _ _ _ _
  | none =>
    refine Ensures.modify_bind ((keepTail_indexes unwound _).mono ?_ fun _ _ _ => trivial)
    intro _ v hv
    rw [hv, collectUnwound_indexes hunwound]
    exact congrArg (·.map UnwoundBlock.index ++ _) (hsame.trans hsame').unwound

variable {parentAlt : Option Hash} {infos : List BlockInfo} {block : BlockTemplate}
  {prev d fork : Nat} {info : BlockInfo} {raw : RawBlock}

/-- A branch block that passes and outweighs the main chain is switched to. -/
theorem PassedAlternative.addBlockUnpruned_eq
    (hpass : PassedAlternative cx s raw block hash prev parentAlt fork infos info d)
    (hlt : s.mainCumulative < info.cumulativeDifficulty) :
    addBlockUnpruned cx raw s =
      (switchTo cx hash >>= fun _ => pure (⟨prev+1,hash,info.cumulativeDifficulty,
        info.alreadyGeneratedCoins,d,.alternativeAndSwitched⟩,some hash))
        (s.withAlt hash (newAlt block raw prev info)) := by
  have hlt' : (s.tipInfo.map BlockInfo.cumulativeDifficulty).getD 0 < info.cumulativeDifficulty := hlt
  have hfresh : refuseIf (s.hasBlock hash = true) (ChainError.rule .alreadyExists) = .ok ⟨⟩ := by
    rw [hpass.presented.fresh]
    rfl
  have halternative : addToAlternativeUnpruned cx block raw hash prev parentAlt s =
      (switchTo cx hash >>= fun _ => pure (⟨prev+1,hash,info.cumulativeDifficulty,
        info.alreadyGeneratedCoins,d,.alternativeAndSwitched⟩,some hash))
        (s.withAlt hash (newAlt block raw prev info)) := by
    unfold addToAlternativeUnpruned
    rw [run_get_bind, hpass.branchInfos, run_bind_of_ok (liftExcept_ok _ s)]
    dsimp only
    rw [hpass.passed, run_bind_of_ok (liftExcept_ok _ s)]
    dsimp only
    rw [run_set_bind, if_pos hlt']
    rfl
  unfold addBlockUnpruned
  rw [hpass.presented.parsed, Except.mapError, run_bind_of_ok (liftExcept_ok _ s),
    hpass.presented.hashed, Except.mapError, run_bind_of_ok (liftExcept_ok _ s), run_get_bind,
    hfresh, run_bind_of_ok (liftExcept_ok _ s), hpass.located, run_bind_of_ok (liftExcept_ok _ s)]
  cases parentAlt with
  | none => exact halternative
  | some parent => exact halternative

theorem Switched.unwound_indexes (hU : UniqueIds cx U) (hI : Stable U I) {outcome : AddOutcome}
    {exclude : Option Hash}
    (hpass : PassedAlternative cx s raw block hash prev parentAlt fork infos info d)
    (hlt : s.mainCumulative < info.cumulativeDifficulty)
    (hkept : Kept U I (s.withAlt hash (newAlt block raw prev info)) (p ++ q))
    (hswitched : Switched cx U I (s.withAlt hash (newAlt block raw prev info)) hash t p q bs branch)
    (hrun : addBlockUnpruned cx raw s = .ok (outcome,exclude) t) (hclear : s.unwound = []) :
    t.unwound.map UnwoundBlock.index = (range' p.length q.length).reverse := by
  rw [hpass.addBlockUnpruned_eq hlt] at hrun
  have hspec := switchTo_unwound hU hI hkept hswitched.nonempty hswitched.branchEq
  cases hswitch : switchTo cx hash (s.withAlt hash (newAlt block raw prev info)) with
  | error e u =>
    rw [run_bind_of_error hswitch] at hrun
    cases hrun
  | ok _ u =>
    rw [run_bind_of_ok hswitch] at hrun
    cases hrun
    have hindexes := hspec.of_ok_of_eq hswitch
    have hnil : (s.withAlt hash (newAlt block raw prev info)).unwound = [] := hclear
    rwa [hnil, map_nil, nil_append] at hindexes

end

section

variable {cx : Crypto} {U : Set RawBlock} {cfg : Config} {checkpoints : Checkpoints} {now : Nat}
  {s t : ChainState} {alts alts' : AltBlocks} {chain p q bs : MainChain cx} {b : MainBlock cx}
  {raw : RawBlock} {block : BlockTemplate} {hash y : Hash} {branch : List Hash}

def OffTip (alts : AltBlocks) (chain : MainChain cx) : Prop :=
  ∀ x a, alts.lookup x = some a → ∀ b, chain.getLast? = some b → a.prevHash ≠ b.info.blockHash

theorem OffTip.mono (h : OffTip alts chain) (hsub : alts'.SubsetOf alts) : OffTip alts' chain :=
  fun x a ha => h x a (hsub x a ha)

variable {infos : List BlockInfo} {alt : AltBlock} {parentAlt : Option Hash} {prev d fork : Nat}
  {info : BlockInfo} {e : ChainError}

theorem Lineage.known (h : Lineage alts chain y infos) :
    (∃ a, alts.lookup y = some a) ∨ ∃ b ∈ chain, b.info.blockHash = y := by
  cases h with
  | main hb => exact .inr ⟨_,mem_of_getElem? hb,rfl⟩
  | alt ha _ => exact .inl ⟨_,ha⟩

theorem Grove.parent_ne (h : Grove cfg checkpoints now U s chain) {x : Hash} {a : AltBlock}
    (ha : s.altBlocks.lookup x = some a) (hfresh : s.hasBlock hash = false) : a.prevHash ≠ hash := by
  obtain ⟨hnotAlt,hnotMain⟩ := hasBlock_false hfresh
  obtain ⟨infos,hlineage,_⟩ := h.rooted.passed x a ha
  rintro rfl
  rcases hlineage.known with ⟨a',ha'⟩ | ⟨b,hb,hhash⟩
  · rw [hnotAlt] at ha'
    cases ha'
  · obtain ⟨i,hi⟩ := getElem?_of_mem hb
    have hindex := h.kept.sound.holds.toHoldsTables.blockIndexByHash_iff.2 ⟨b,hi,hhash⟩
    rw [hnotMain] at hindex
    cases hindex

theorem Grove.offTip_push (h : Grove cfg checkpoints now U s chain)
    (hfresh : s.hasBlock b.info.blockHash = false) : OffTip s.altBlocks (chain ++ [b]) := by
  intro x a ha c hc
  rw [getLast?_concat] at hc
  cases hc
  exact h.parent_ne ha hfresh

theorem PassedAlternative.offTip
    (hpass : PassedAlternative cx s raw block hash prev parentAlt fork infos info d)
    (h : Grove cfg checkpoints now U s chain) (hoff : OffTip s.altBlocks chain) :
    OffTip (s.withAlt hash (newAlt block raw prev info)).altBlocks chain := by
  intro x a ha b hb
  by_cases hx : x = hash
  · subst hx
    simp only [withAlt, AList.lookup_insert, Option.some.injEq] at ha
    subst ha
    intro heq
    have hprev : block.previousBlockHash = b.info.blockHash := heq
    have hlen := length_pos_iff.2 h.kept.sound.nonempty
    have hindex : s.blockIndexByHash block.previousBlockHash = some (chain.length - 1) := by
      rw [getLast?_eq_getElem?] at hb
      exact h.kept.sound.holds.toHoldsTables.blockIndexByHash_iff.2 ⟨b,hb,hprev.symm⟩
    have htip : s.tip = some (chain.length - 1) := by
      rw [h.kept.sound.holds.tip]
      exact MainChain.tip_eq_some_iff.2 (by omega)
    cases parentAlt with
    | none =>
      have hlocated := hpass.located
      unfold locateParent at hlocated
      cases halt : s.altBlocks.lookup block.previousBlockHash with
      | some alt => simp [halt, Parent.ofBranch] at hlocated
      | none => simp [halt, hindex, htip, Parent.ofBranch] at hlocated
    | some parent =>
      obtain ⟨_,alt,halt,_⟩ := locateParent_alternative hpass.located
      exact h.rooted.apart _ alt halt b (mem_of_getLast? hb) hprev.symm
  · simp only [withAlt, AList.lookup_insert_ne hx] at ha
    exact hoff x a ha b hb

/-- A switch takes the tip off: the branch it follows does not stand on it. -/
theorem Switched.tail_ne (h : Grove cfg checkpoints now U (s.withAlt hash alt) (p ++ q))
    (hoff : OffTip (s.withAlt hash alt).altBlocks (p ++ q))
    (hswitched : Switched cx U (Settled cfg checkpoints now)
      (s.withAlt hash alt) hash t p q bs branch) : q ≠ [] := by
  rintro rfl
  obtain ⟨x,hx,hnone,hfollows,hnil,_⟩ := branchHashes_ok hswitched.branchEq
  obtain ⟨c,hc,rfl⟩ := h.kept.sound.fork_last hswitched.nonempty hx
  cases branch with
  | nil =>
    rw [hnil rfl] at hnone
    simp [withAlt] at hnone
  | cons first rest =>
    obtain ⟨⟨a,ha,hprev⟩,_⟩ := hfollows
    exact hoff first a ha c (by rw [append_nil]; exact hc) hprev

theorem Switched.offTip (hfresh : s.hasBlock hash = false)
    (hbefore : Grove cfg checkpoints now U s (p ++ q)) (hinfo : alt.info.blockHash = hash)
    (h : Grove cfg checkpoints now U (s.withAlt hash alt) (p ++ q))
    (hswitched : Switched cx U (Settled cfg checkpoints now)
      (s.withAlt hash alt) hash t p q bs branch) : OffTip t.altBlocks (p ++ bs) := by
  obtain ⟨_,b,hb,hbinfo⟩ := hswitched.grove h
  obtain ⟨hnotAlt,hnotMain⟩ := hasBlock_false hfresh
  have hmem : hash ∈ branch := by
    obtain ⟨x,_,hnone,_,hnil,hlast⟩ := branchHashes_ok hswitched.branchEq
    refine mem_of_getLast? (hlast fun hempty => ?_)
    rw [hnil hempty] at hnone
    simp [withAlt] at hnone
  intro y a ha c hc
  rw [hb] at hc
  cases hc
  rw [hbinfo, hinfo]
  rw [hswitched.altBlocks] at ha
  rcases keepAlts_lookup_cases ha with ⟨q₁,d,q₂,rfl,_,rfl⟩ | ⟨_,hold⟩
  · -- a block of the old tail, whose parent was on the old chain
    intro hprev
    have hpos := length_pos_iff.2 hswitched.nonempty
    have hplace : (p ++ (q₁ ++ d :: q₂))[p.length + q₁.length - 1 + 1]? = some d := by
      rw [Nat.sub_add_cancel (by omega), ← append_assoc,
        getElem?_append_right (by simp), length_append, Nat.sub_self]
      rfl
    obtain ⟨c,hc⟩ : ∃ c, (p ++ (q₁ ++ d :: q₂))[p.length + q₁.length - 1]? = some c := by
      have hlt : p.length + q₁.length - 1 < (p ++ (q₁ ++ d :: q₂)).length := by
        simp only [length_append, length_cons]
        omega
      exact ⟨_,getElem?_eq_getElem hlt⟩
    have hparent := hbefore.kept.sound.linked.parent _ c d hc hplace
    have hindex := hbefore.kept.sound.holds.toHoldsTables.blockIndexByHash_iff.2
      ⟨c,hc,hparent.symm.trans hprev⟩
    rw [hnotMain] at hindex
    cases hindex
  · rw [dropAll_lookup] at hold
    split at hold
    · cases hold
    · next hnot =>
      have hne : y ≠ hash := fun heq => hnot (heq ▸ hmem)
      simp only [withAlt, AList.lookup_insert_ne hne] at hold
      exact hbefore.parent_ne hold hfresh

/-- The report of an accepted block, by the chain before and after it. -/
inductive Reports (raw : RawBlock) (chain : MainChain cx) (report : AddReport) : MainChain cx → Prop where
  | main (b : MainBlock cx) (hraw : b.raw = raw) (hstatus : report.outcome.status = .main)
      (hindex : report.outcome.index = chain.length)
      (hhash : report.outcome.hash = b.info.blockHash) : Reports raw chain report (chain ++ [b])
  | alternative (hstatus : report.outcome.status = .alternative) : Reports raw chain report chain
  | switched (p q bs : MainChain cx) (b : MainBlock cx) (hchain : chain = p ++ q) (hp : p ≠ [])
      (hstatus : report.outcome.status = .alternativeAndSwitched)
      (hlowest : report.unwound.getLast?.map UnwoundBlock.index = some p.length)
      (hlast : (p ++ bs).getLast? = some b) (hhash : report.outcome.hash = b.info.blockHash)
      (hindex : report.outcome.index + 1 = (p ++ bs).length) : Reports raw chain report (p ++ bs)

theorem addBlockDetailed_of_unpruned {outcome : AddOutcome} {exclude : Option Hash} {u : ChainState}
    (h : addBlockUnpruned cx raw s.cleared = .ok (outcome,exclude) u) :
    addBlockDetailed cx raw s = .ok ⟨outcome,u.unwound⟩ (u.pruned exclude).cleared := by
  unfold addBlockDetailed
  have hinner : addBlockInner cx raw s.cleared = .ok outcome (u.pruned exclude) := by
    rw [addBlockInner_eq, run_bind_of_ok h]
    rfl
  have hunwound : (u.pruned exclude).unwound = u.unwound := by
    unfold pruned
    cases u.tip <;> rfl
  rw [← hunwound, run_modify_bind]
  exact run_bind_of_ok hinner

theorem SwitchFailed.subsetOf (hundo : Undoes U cfg (s.withAlt hash alt) chain hash)
    (h : Grove cfg checkpoints now U (s.withAlt hash alt) chain)
    (hfailed : SwitchFailed cx U (Settled cfg checkpoints now)
      (s.withAlt hash alt) chain hash e t) : t.altBlocks.SubsetOf (s.withAlt hash alt).altBlocks := by
  cases hfailed with
  | noBranch | belowFloor | noBody => exact .refl _
  | undone p q bs done rest failedAt e e' v t w hchain hp hbodies hoff hgrew hbranch hfloor hbuilt
      hkept hsame href hback =>
    subst hchain
    have hundo' : cfg.CanUndo bs.length q.length :=
      hundo p q bs v done rest failedAt rfl hp hkept.sound hbuilt.length_eq hbranch
    obtain ⟨_,hundone⟩ := hback.undone hp h.kept hbodies hoff hgrew hfloor hkept hsame href hundo'
    rw [hundone.altBlocks]
    exact fun _ _ ha => dropAll_lookup_some ha

theorem Config.Serves.undoes (hserves : cfg.Serves) : Undoes U cfg s chain hash := by
  intro p q bs v done rest failedAt _ hp hsound _ _
  refine .inr (.inl ?_)
  rw [hserves.unwindHistory]
  exact hsound.branch_length_lt hp

theorem AddRefused.offTip (hU : UniqueIds cx U) (hserves : cfg.Serves)
    (h : Grove cfg checkpoints now U s chain) (hoff : OffTip s.altBlocks chain)
    (href : AddRefused cx U (Settled cfg checkpoints now) s chain raw e t) :
    OffTip t.altBlocks chain := by
  cases href with
  | switch block hash prev d parentAlt fork infos info e t hpass hlt hkept hfailed =>
    exact (hpass.offTip h hoff).mono (hfailed.subsetOf hserves.undoes (h.withAlt hU hpass hkept))
  | unparsed | unhashed | held | orphan | main | noBranch | alternative => exact hoff

theorem Switched.tip_eq (hU : UniqueIds cx U)
    (hpass : PassedAlternative cx s raw block hash prev parentAlt fork infos info d)
    (hbefore : Grove cfg checkpoints now U s (p ++ q)) (hknown : raw ∈ U)
    (h : Grove cfg checkpoints now U (s.withAlt hash (newAlt block raw prev info)) (p ++ q))
    (hswitched : Switched cx U (Settled cfg checkpoints now)
      (s.withAlt hash (newAlt block raw prev info)) hash t p q bs branch) :
    ∃ b, (p ++ bs).getLast? = some b ∧ b.info.blockHash = hash ∧ prev + 1 + 1 = (p ++ bs).length := by
  obtain ⟨_,b,hb,hinfo⟩ := hswitched.grove h
  obtain ⟨template,pt,hsound⟩ := hbefore.kept.sound.newAlt_sound hknown hpass
  have hhash : b.info.blockHash = hash := by
    rw [hinfo]
    exact hsound.infoHash
  refine ⟨b,hb,hhash,?_⟩
  rw [List.getLast?_eq_getElem?] at hb
  have hlt := (List.getElem?_eq_some_iff.1 hb).1
  have hindex := hswitched.kept.sound.linked.index_of_hash hU ⟨_,hsound.known,hsound.parsed⟩
    hsound.hashed hsound.height hb hhash
  change prev + 1 = _ at hindex
  omega

/-- Every way a call can end for a daemon whose clock does not go back: an accepted block
is reported as what it did to the main chain, and a refused one leaves the chain alone. -/
theorem addBlockDetailed_reports (hU : UniqueIds cx U) (hT : UniqueTxIds cx U)
    (hfree : ReplayFree checkpoints U) (hserves : cfg.Serves)
    (h : Grove cfg checkpoints now U s chain) (hoff : OffTip s.altBlocks chain) (hknown : raw ∈ U) :
    Ensures (addBlockDetailed cx raw) s
      (fun report t => ∃ chain', Grove cfg checkpoints now U t chain' ∧ OffTip t.altBlocks chain' ∧
        Reports raw chain report chain')
      (fun _ t => Grove cfg checkpoints now U t chain ∧ OffTip t.altBlocks chain) := by
  have hI : Stable U (Settled cfg checkpoints now) := stable_settled cfg now hT hfree
  have hspec := addBlock_spec hU hI h.kept hknown
  have hclear := h.cleared hT hfree
  cases hrun : addBlockDetailed cx raw s with
  | error e t =>
    have href := hspec.of_error_of_eq (addBlock_of_detailed_error hrun)
    exact Ensures.of_error hrun
      ⟨(href.grove_of hU hclear fun _ _ _ _ => hserves.undoes).1,href.offTip hU hserves hclear hoff⟩
  | ok report t =>
    refine Ensures.of_ok hrun ?_
    obtain ⟨exclude,u,hunpruned,haccepted,rfl⟩ := hspec.of_ok_of_eq (addBlock_of_detailed hrun)
    obtain ⟨outcome,unwound⟩ := report
    have hreport := hrun.symm.trans (addBlockDetailed_of_unpruned hunpruned)
    have hunwound : unwound = u.unwound := by
      injection hreport with hr _
      injection hr
    subst hunwound
    cases haccepted with
    | main prev d b hpres hraw hprev hparent hcheck hkept =>
      refine ⟨_,((hclear.push hpres.fresh hkept).pruned hT hfree none).cleared hT hfree,?_,
        .main b hraw rfl hprev rfl⟩
      exact (hclear.offTip_push hpres.fresh).mono (pruned_subsetOf _ none)
    | alternative block hash prev d parentAlt fork infos info hpass hle hkept =>
      refine ⟨_,((hclear.withAlt hU hpass hkept).pruned hT hfree (some hash)).cleared hT hfree,?_,
        .alternative rfl⟩
      exact (hpass.offTip hclear hoff).mono (pruned_subsetOf _ (some hash))
    | switched block hash prev d parentAlt fork infos info hpass hlt hkept t p q bs branch hchain
        hswitched =>
      subst hchain
      have halt := hclear.withAlt hU hpass hkept
      obtain ⟨hgrove,_⟩ := hswitched.grove halt
      obtain ⟨b,hb,hhash,hindex⟩ := hswitched.tip_eq hU hpass hclear hknown halt
      obtain ⟨_,_,hsound⟩ := hclear.kept.sound.newAlt_sound hknown hpass
      refine ⟨_,(hgrove.pruned hT hfree (some hash)).cleared hT hfree,
        (hswitched.offTip hpass.presented.fresh hclear hsound.infoHash halt).mono
          (pruned_subsetOf _ (some hash)),
        .switched p q bs b rfl hswitched.nonempty rfl ?_ hb hhash.symm hindex⟩
      have hindexes := hswitched.unwound_indexes hU hI hpass hlt hkept hunpruned rfl
      have htail := length_pos_iff.2 (hswitched.tail_ne halt (hpass.offTip hclear hoff))
      rw [← getLast?_map, hindexes, getLast?_reverse, head?_range', if_neg (by omega)]

end

end Wrkz
