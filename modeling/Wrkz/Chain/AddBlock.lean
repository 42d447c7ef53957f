import Wrkz.Chain.Reorganise

/-!
`add_block` as a transition: every way it can end, with what it then leaves. All
results about runs read their cases off here.
-/

set_option autoImplicit false

namespace Wrkz

open Library ChainState

variable {cx : Crypto} {U : Set RawBlock} {I : ChainState → MainChain cx → Prop}
  {s : ChainState} {chain : MainChain cx}

def ChainState.withAlt (s : ChainState) (hash : Hash) (alt : AltBlock) : ChainState :=
  { s with altBlocks := s.altBlocks.insert hash alt }

def ChainState.pruned (s : ChainState) (exclude : Option Hash) : ChainState :=
  match s.tip with
  | none => s
  | some tip => { s with altBlocks := s.altBlocks.prune tip exclude }

structure Presented (cx : Crypto) (s : ChainState) (raw : RawBlock) (block : BlockTemplate)
    (hash : Hash) : Prop where
  parsed : BlockTemplate.fromBytes raw.block = .ok block
  hashed : block.hash cx = .ok hash
  fresh : s.hasBlock hash = false

/-- The parent of a branch block: on the main chain below the tip, or on a branch. -/
def Parent.ofBranch (parentAlt : Option Hash) (prev : Nat) : Parent :=
  match parentAlt with
  | none => .mainDepth prev
  | some parent => .alternative parent prev

structure PassedAlternative (cx : Crypto) (s : ChainState) (raw : RawBlock)
    (block : BlockTemplate) (hash : Hash) (prev : Nat) (parentAlt : Option Hash) (fork : Nat)
    (infos : List BlockInfo) (info : BlockInfo) (difficulty : Nat) : Prop where
  presented : Presented cx s raw block hash
  located : s.locateParent block.previousBlockHash = .ok (Parent.ofBranch parentAlt prev)
  branchInfos : s.branchInfos parentAlt prev = .ok (fork,infos)
  passed : s.checkAlternative cx (.withBranch fork infos) block raw.transactions hash prev =
    .ok (info,difficulty)

def newAlt (block : BlockTemplate) (raw : RawBlock) (prev : Nat) (info : BlockInfo) : AltBlock :=
  ⟨prev+1,block.previousBlockHash,info,raw.block,raw.transactions⟩

/-- `add_to_alternative` up to where it prunes, with the branch to spare. -/
def ChainState.addToAlternativeUnpruned (cx : Crypto) (block : BlockTemplate) (raw : RawBlock)
    (hash : Hash) (previousIndex : Nat) (parentAlt : Option Hash) :
    ChainM (AddOutcome × Option Hash) := do
  let s ← get
  let (forkIndex,infos) ← liftExcept (s.branchInfos parentAlt previousIndex)
  let (info,difficulty) ← liftExcept (s.checkAlternative cx (.withBranch forkIndex infos) block
    raw.transactions hash previousIndex)
  set (s.withAlt hash (newAlt block raw previousIndex info))
  let mainCumulative := (s.tipInfo.map BlockInfo.cumulativeDifficulty).getD 0
  let status ← if mainCumulative < info.cumulativeDifficulty then do
      switchTo cx hash
      pure AddStatus.alternativeAndSwitched
    else pure AddStatus.alternative
  pure (⟨previousIndex+1,hash,info.cumulativeDifficulty,info.alreadyGeneratedCoins,difficulty,
    status⟩,some hash)

/-- `add_block` up to where it prunes, with the branch to spare. -/
def ChainState.addBlockUnpruned (cx : Crypto) (raw : RawBlock) :
    ChainM (AddOutcome × Option Hash) := do
  let block ← liftExcept ((BlockTemplate.fromBytes raw.block).mapError
    (fun _ => ChainError.rule (.deserializationFailed "block blob")))
  let hash ← liftExcept ((block.hash cx).mapError
    (fun _ => ChainError.rule (.deserializationFailed "block hash")))
  let s ← get
  liftExcept (refuseIf (s.hasBlock hash = true) (ChainError.rule .alreadyExists))
  let parent ← liftExcept (s.locateParent block.previousBlockHash)
  match parent with
  | .mainTip previousIndex => do
    let outcome ← addToMain cx block raw hash previousIndex
    pure (outcome,none)
  | .mainDepth previousIndex => addToAlternativeUnpruned cx block raw hash previousIndex none
  | .alternative prevHash previousIndex =>
    addToAlternativeUnpruned cx block raw hash previousIndex (some prevHash)

def ChainState.finish (r : AddOutcome × Option Hash) : ChainM AddOutcome := do
  pruneAlternativeChains r.2
  pure r.1

theorem addToAlternative_eq (block : BlockTemplate) (raw : RawBlock) (hash : Hash) (prev : Nat)
    (parentAlt : Option Hash) :
    addToAlternative cx block raw hash prev parentAlt =
      addToAlternativeUnpruned cx block raw hash prev parentAlt >>=
        finish := by
  unfold addToAlternative addToAlternativeUnpruned withAlt newAlt
  simp only [bind_assoc]
  refine congrArg _ (funext fun s => congrArg _ (funext fun r => congrArg _ (funext fun r' =>
    congrArg _ (funext fun _ => ?_))))
  split
  · simp only [bind_assoc, pure_bind, finish]
  · simp only [pure_bind, finish]

theorem addBlockInner_eq (raw : RawBlock) :
    addBlockInner cx raw = addBlockUnpruned cx raw >>= finish := by
  unfold addBlockInner addBlockUnpruned
  simp only [bind_assoc, addToAlternative_eq]
  refine congrArg _ (funext fun block => congrArg _ (funext fun hash => congrArg _ (funext fun s =>
    congrArg _ (funext fun _ => congrArg _ (funext fun parent => ?_)))))
  cases parent with
  | mainTip prev => simp only [bind_assoc, pure_bind]; rfl
  | mainDepth prev => rfl
  | alternative prevHash prev => rfl

def ChainState.mainCumulative (s : ChainState) : Nat :=
  (s.tipInfo.map BlockInfo.cumulativeDifficulty).getD 0

/-- How `add_block` accepts: the outcome, the branch that pruning is to spare and
the state before the branches are pruned. -/
inductive AddAccepted (cx : Crypto) (U : Set RawBlock)
    (I : ChainState → MainChain cx → Prop) (s : ChainState) (chain : MainChain cx)
    (raw : RawBlock) : AddOutcome → Option Hash → ChainState → Prop where
  | main (prev d : Nat) (b : MainBlock cx)
      (hpres : Presented cx s raw b.block b.info.blockHash) (hraw : b.raw = raw)
      (hprev : prev + 1 = chain.length)
      (hparent : s.blockIndexByHash b.block.previousBlockHash = some prev)
      (hcheck : s.checkMain cx b.block raw.transactions b.info.blockHash prev = .ok (b.accepted d))
      (hkept : Kept U I (s.afterPush chain b) (chain ++ [b])) :
      AddAccepted cx U I s chain raw
        ⟨prev+1,b.info.blockHash,b.info.cumulativeDifficulty,b.info.alreadyGeneratedCoins,d,.main⟩
        none (s.afterPush chain b)
  | alternative (block : BlockTemplate) (hash : Hash) (prev d : Nat) (parentAlt : Option Hash)
      (fork : Nat) (infos : List BlockInfo) (info : BlockInfo)
      (hpass : PassedAlternative cx s raw block hash prev parentAlt fork infos info d)
      (hle : info.cumulativeDifficulty ≤ s.mainCumulative)
      (hkept : Kept U I (s.withAlt hash (newAlt block raw prev info)) chain) :
      AddAccepted cx U I s chain raw
        ⟨prev+1,hash,info.cumulativeDifficulty,info.alreadyGeneratedCoins,d,.alternative⟩
        (some hash) (s.withAlt hash (newAlt block raw prev info))
  | switched (block : BlockTemplate) (hash : Hash) (prev d : Nat) (parentAlt : Option Hash)
      (fork : Nat) (infos : List BlockInfo) (info : BlockInfo)
      (hpass : PassedAlternative cx s raw block hash prev parentAlt fork infos info d)
      (hlt : s.mainCumulative < info.cumulativeDifficulty)
      (hkept : Kept U I (s.withAlt hash (newAlt block raw prev info)) chain)
      (t : ChainState) (p q bs : MainChain cx) (branch : List Hash) (hchain : chain = p ++ q)
      (hswitched : Switched cx U I (s.withAlt hash (newAlt block raw prev info)) hash t p q bs
        branch) :
      AddAccepted cx U I s chain raw
        ⟨prev+1,hash,info.cumulativeDifficulty,info.alreadyGeneratedCoins,d,.alternativeAndSwitched⟩
        (some hash) t

/-- How `add_block` refuses. -/
inductive AddRefused (cx : Crypto) (U : Set RawBlock)
    (I : ChainState → MainChain cx → Prop) (s : ChainState) (chain : MainChain cx)
    (raw : RawBlock) : ChainError → ChainState → Prop where
  | unparsed (e : Error) (h : BlockTemplate.fromBytes raw.block = .error e) :
      AddRefused cx U I s chain raw (.rule (.deserializationFailed "block blob")) s
  | unhashed (block : BlockTemplate) (e : Error)
      (hparsed : BlockTemplate.fromBytes raw.block = .ok block) (h : block.hash cx = .error e) :
      AddRefused cx U I s chain raw (.rule (.deserializationFailed "block hash")) s
  | held (block : BlockTemplate) (hash : Hash)
      (hparsed : BlockTemplate.fromBytes raw.block = .ok block) (hhash : block.hash cx = .ok hash)
      (h : s.hasBlock hash = true) : AddRefused cx U I s chain raw (.rule .alreadyExists) s
  | orphan (block : BlockTemplate) (hash : Hash) (e : ChainError)
      (hpres : Presented cx s raw block hash)
      (h : s.locateParent block.previousBlockHash = .error e) :
      AddRefused cx U I s chain raw e s
  | main (block : BlockTemplate) (hash : Hash) (prev : Nat) (e : ChainError)
      (hpres : Presented cx s raw block hash) (hprev : prev + 1 = chain.length)
      (hparent : s.blockIndexByHash block.previousBlockHash = some prev)
      (h : s.checkMain cx block raw.transactions hash prev = .error e) :
      AddRefused cx U I s chain raw e s
  | noBranch (block : BlockTemplate) (hash : Hash) (prev : Nat) (parentAlt : Option Hash)
      (e : ChainError) (hpres : Presented cx s raw block hash)
      (hlocated : s.locateParent block.previousBlockHash = .ok (Parent.ofBranch parentAlt prev))
      (h : s.branchInfos parentAlt prev = .error e) : AddRefused cx U I s chain raw e s
  | alternative (block : BlockTemplate) (hash : Hash) (prev : Nat) (parentAlt : Option Hash)
      (fork : Nat) (infos : List BlockInfo) (e : ChainError)
      (hpres : Presented cx s raw block hash)
      (hlocated : s.locateParent block.previousBlockHash = .ok (Parent.ofBranch parentAlt prev))
      (hinfos : s.branchInfos parentAlt prev = .ok (fork,infos))
      (h : s.checkAlternative cx (.withBranch fork infos) block raw.transactions hash prev =
        .error e) : AddRefused cx U I s chain raw e s
  | switch (block : BlockTemplate) (hash : Hash) (prev d : Nat) (parentAlt : Option Hash)
      (fork : Nat) (infos : List BlockInfo) (info : BlockInfo) (e : ChainError) (t : ChainState)
      (hpass : PassedAlternative cx s raw block hash prev parentAlt fork infos info d)
      (hlt : s.mainCumulative < info.cumulativeDifficulty)
      (hkept : Kept U I (s.withAlt hash (newAlt block raw prev info)) chain)
      (hfailed : SwitchFailed cx U I (s.withAlt hash (newAlt block raw prev info)) chain hash e t) :
      AddRefused cx U I s chain raw e t

variable {parentAlt : Option Hash} {raw : RawBlock} {hash : Hash} {prev : Nat}
  {block : BlockTemplate} {x : Hash}

theorem Sound.parent_known (h : Sound U s chain)
    (hlocated : s.locateParent x = .ok (Parent.ofBranch parentAlt prev)) :
    ∃ pt ∈ templatesOf U, pt.hash cx = .ok x ∧ pt.coinbaseHeight = some prev := by
  unfold locateParent at hlocated
  cases hl : s.altBlocks.lookup x with
  | some alt =>
    rw [hl] at hlocated
    cases parentAlt with
    | none => simp [Parent.ofBranch] at hlocated
    | some parent =>
      simp only [Parent.ofBranch, Except.ok.injEq, Parent.alternative.injEq] at hlocated
      obtain ⟨rfl,rfl⟩ := hlocated
      obtain ⟨t,pt,ha⟩ := h.alts x alt hl
      exact ⟨t,⟨_,ha.known,ha.parsed⟩,ha.hashed,ha.height⟩
  | none =>
    rw [hl] at hlocated
    cases hi : s.blockIndexByHash x with
    | none => rw [hi] at hlocated; cases hlocated
    | some i =>
      rw [hi] at hlocated
      cases parentAlt with
      | some parent =>
        simp only at hlocated
        split at hlocated <;> cases hlocated
      | none =>
        simp only at hlocated
        split at hlocated
        · cases hlocated
        · cases hlocated
          obtain ⟨c,hc,heq⟩ := h.holds.toHoldsTables.blockIndexByHash_iff.1 hi
          exact ⟨c.block,h.linked.template_mem c (List.mem_of_getElem? hc),heq ▸ c.hashed,
            h.linked.height _ c hc⟩

theorem Sound.newAlt_sound (h : Sound U s chain) {prev d fork : Nat} {infos : List BlockInfo}
    {info : BlockInfo} (hknown : raw ∈ U)
    (hpass : PassedAlternative cx s raw block hash prev parentAlt fork infos info d) :
    ∃ t p, AltSound cx U hash (newAlt block raw prev info) t p := by
  obtain ⟨pt,hpt,hhash,hheight⟩ := h.parent_known hpass.located
  obtain ⟨head,_,_,_,info',hhead,_,_,_,hinfo,heq⟩ := checkAlternative_ok_iff.1 hpass.passed
  simp only [Prod.mk.injEq] at heq
  refine ⟨block,pt,hknown,hpass.presented.parsed,hpass.presented.hashed,rfl,
    checkHead_coinbaseHeight hhead,?_,hpt,hhash,prev,hheight,rfl⟩
  simp only [newAlt, heq.1, (nextInfo_ok_iff.1 hinfo).2]

theorem Kept.withAlt (h : Kept U I s chain) (hI : Stable U I) {alt : AltBlock}
    (halt : ∃ t p, AltSound cx U hash alt t p) : Kept U I (s.withAlt hash alt) chain :=
  h.branches hI (h.sound.alts.insert halt) s.unwound

theorem addToAlternativeUnpruned_spec (hU : UniqueIds cx U) (hI : Stable U I) (h : Kept U I s chain)
    (hknown : raw ∈ U) (hpres : Presented cx s raw block hash)
    (hlocated : s.locateParent block.previousBlockHash = .ok (Parent.ofBranch parentAlt prev)) :
    Ensures (addToAlternativeUnpruned cx block raw hash prev parentAlt) s
      (fun r => AddAccepted cx U I s chain raw r.1 r.2) (AddRefused cx U I s chain raw) := by
  unfold addToAlternativeUnpruned
  refine .of_run (run_get_bind _ _) ?_
  cases hinfos : s.branchInfos parentAlt prev with
  | error e =>
    exact .of_error (run_bind_of_error rfl)
      (.noBranch block hash prev parentAlt e hpres hlocated hinfos)
  | ok r =>
    obtain ⟨fork,infos⟩ := r
    refine .of_run (run_bind_of_ok (a := (fork,infos)) (t := s) rfl) ?_
    simp only
    cases hcheck : s.checkAlternative cx (.withBranch fork infos) block raw.transactions hash
        prev with
    | error e =>
      exact .of_error (run_bind_of_error rfl)
        (.alternative block hash prev parentAlt fork infos e hpres hlocated hinfos hcheck)
    | ok r =>
      obtain ⟨info,d⟩ := r
      have hpass : PassedAlternative cx s raw block hash prev parentAlt fork infos info d :=
        ⟨hpres,hlocated,hinfos,hcheck⟩
      have hkept := h.withAlt hI (h.sound.newAlt_sound hknown hpass)
      refine .of_run (run_bind_of_ok (a := (info,d)) (t := s) rfl) ?_
      simp only
      refine .of_run (run_set_bind _ _ _) ?_
      by_cases hlt : s.mainCumulative < info.cumulativeDifficulty
      · have hlt' : (s.tipInfo.map BlockInfo.cumulativeDifficulty).getD 0 <
            info.cumulativeDifficulty := hlt
        rw [if_pos hlt']
        have hswitch := switchTo_spec hU hI hkept hash
        refine .bind (hswitch.mono (fun _ _ hq => hq) ?_) ?_
        · intro e t hfailed
          exact .switch block hash prev d parentAlt fork infos info e t hpass hlt hkept hfailed
        · rintro ⟨⟩ t ⟨p,q,bs,branch,hchain,hswitched⟩
          exact .of_ok rfl (.switched block hash prev d parentAlt fork infos info hpass hlt
            hkept t p q bs branch hchain hswitched)
      · have hlt' : ¬ (s.tipInfo.map BlockInfo.cumulativeDifficulty).getD 0 <
            info.cumulativeDifficulty := hlt
        rw [if_neg hlt']
        exact .of_ok rfl (.alternative block hash prev d parentAlt fork infos info hpass
          (Nat.le_of_not_lt hlt) hkept)

theorem locateParent_mainTip (h : s.locateParent x = .ok (.mainTip prev)) :
    s.tip = some prev ∧ s.blockIndexByHash x = some prev := by
  unfold locateParent at h
  split at h
  · cases h
  · split at h
    · cases h
    · rename_i i hi
      split at h
      · rename_i htip
        cases h
        exact ⟨htip.symm,hi⟩
      · cases h

theorem addBlockUnpruned_spec (hU : UniqueIds cx U) (hI : Stable U I) (h : Kept U I s chain)
    (hknown : raw ∈ U) :
    Ensures (addBlockUnpruned cx raw) s
      (fun r => AddAccepted cx U I s chain raw r.1 r.2) (AddRefused cx U I s chain raw) := by
  unfold addBlockUnpruned
  cases hparsed : BlockTemplate.fromBytes raw.block with
  | error e => exact .of_error (run_bind_of_error rfl) (.unparsed e hparsed)
  | ok block =>
    refine .of_run (run_bind_of_ok (a := block) (t := s) rfl) ?_
    cases hhash : block.hash cx with
    | error e => exact .of_error (run_bind_of_error rfl) (.unhashed block e hparsed hhash)
    | ok hash =>
      refine .of_run (run_bind_of_ok (a := hash) (t := s) rfl) ?_
      refine .of_run (run_get_bind _ _) ?_
      cases hheld : s.hasBlock hash with
      | true =>
        refine .of_error (run_bind_of_error rfl) (.held block hash hparsed hhash hheld)
      | false =>
        have hpres : Presented cx s raw block hash := ⟨hparsed,hhash,hheld⟩
        refine .of_run (run_bind_of_ok (a := ⟨⟩) (t := s) rfl) ?_
        cases hparent : s.locateParent block.previousBlockHash with
        | error e =>
          exact .of_error (run_bind_of_error rfl) (.orphan block hash e hpres hparent)
        | ok parent =>
          refine .of_run (run_bind_of_ok (a := parent) (t := s) rfl) ?_
          cases parent with
          | mainDepth prev => exact addToAlternativeUnpruned_spec hU hI h hknown hpres hparent
          | alternative prevHash prev => exact addToAlternativeUnpruned_spec hU hI h hknown hpres hparent
          | mainTip prev =>
            obtain ⟨htip,hindex⟩ := locateParent_mainTip hparent
            have hprev : prev + 1 = chain.length :=
              (MainChain.tip_eq_some_iff.1 (h.sound.holds.tip.symm.trans htip)).symm
            obtain ⟨c,hc,hcx⟩ := h.sound.holds.toHoldsTables.blockIndexByHash_iff.1 hindex
            have hlast : ∀ c', chain.getLast? = some c' →
                block.previousBlockHash = c'.info.blockHash := by
              intro c' hc'
              rw [List.getLast?_eq_getElem?, show chain.length - 1 = prev by omega, hc] at hc'
              cases hc'
              exact hcx.symm
            rcases h.addToMain_cases hU hI hknown hparsed hhash hprev hlast with
              ⟨e,hadd,hcheck⟩ | ⟨b,d,rfl,hraw,rfl,hcheck,hadd,hkept⟩
            · exact .of_error (run_bind_of_error hadd)
                (.main block hash prev e hpres hprev hindex hcheck)
            · exact .of_ok (run_bind_of_ok hadd)
                (.main prev d b hpres hraw hprev hindex hcheck hkept)

def ChainState.cleared (s : ChainState) : ChainState := { s with unwound := [] }

theorem Kept.cleared (h : Kept U I s chain) (hI : Stable U I) : Kept U I s.cleared chain :=
  h.branches hI h.sound.alts []

/-- A call that accepts its block, up to where it prunes and as a whole. -/
structure Accepts (cx : Crypto) (U : Set RawBlock) (I : ChainState → MainChain cx → Prop)
    (s : ChainState) (chain : MainChain cx) (raw : RawBlock) (outcome : AddOutcome)
    (exclude : Option Hash) (u t : ChainState) : Prop where
  unpruned : addBlockUnpruned cx raw s = .ok (outcome,exclude) u
  accepted : AddAccepted cx U I s chain raw outcome exclude u
  final : t = (u.pruned exclude).cleared

theorem addBlock_spec (hU : UniqueIds cx U) (hI : Stable U I) (h : Kept U I s chain) (hknown : raw ∈ U) :
    Ensures (addBlock cx raw) s
      (fun outcome t => ∃ exclude u, Accepts cx U I s.cleared chain raw outcome exclude u t)
      (AddRefused cx U I s.cleared chain raw) := by
  have hunpruned := (addBlockUnpruned_spec hU hI (h.cleared hI) hknown).with_run
  unfold addBlock addBlockDetailed
  refine .bind (Q := fun report t => ∃ exclude u,
    Accepts cx U I s.cleared chain raw report.outcome exclude u t) ?_ ?_
  · refine .of_run (run_modify_bind _ _ _) ?_
    rw [addBlockInner_eq, bind_assoc]
    refine .bind (hunpruned.mono (fun _ _ hq => hq) fun _ _ he => he.2) ?_
    intro r u hu
    exact .of_ok rfl ⟨r.2,u,hu.1,hu.2,rfl⟩
  · intro report t ht
    exact .pure ht

end Wrkz
