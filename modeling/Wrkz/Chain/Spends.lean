import Wrkz.Chain.Settled

/-!
What the main chain spends and lists while `add_block` moves it. A block that extends it
brings the images of its own transactions. A refused block brings nothing, provided the
node keeps the pair records of every block a branch can have, as the daemon does: then the
blocks of a failed branch can all be taken off again, whatever happens to the old tail.
-/

set_option autoImplicit false

namespace Wrkz

open Library

/-- The chain configuration of a daemon: every body is a candidate for storage and the
pair records are never dropped. -/
structure Config.Serves (cfg : Config) : Prop where
  storeRawBlocks : cfg.storeRawBlocks = true
  unwindHistory : cfg.unwindHistory = 2^32 - 1

namespace MainChain

variable {cx : Crypto}

def Spends (chain : MainChain cx) (k : Hash) : Prop := ∃ b ∈ chain, k ∈ b.images

def Lists (chain : MainChain cx) (h : Hash) : Prop := ∃ b ∈ chain, h ∈ b.txHashes

structure Within (chain' chain : MainChain cx) : Prop where
  spends : ∀ k, Spends chain' k → Spends chain k
  lists : ∀ h, Lists chain' h → Lists chain h

theorem Within.refl (chain : MainChain cx) : Within chain chain := ⟨fun _ h => h,fun _ h => h⟩

end MainChain

/-- The records of the chain, and nothing held that has left its window. -/
structure Tracked {cx : Crypto} (cfg : Config) (checkpoints : Checkpoints) (s : ChainState)
    (chain : MainChain cx) : Prop extends Ledgered cfg checkpoints s chain where
  trimmed : Trimmed s chain.length

section

variable {cx : Crypto} {U : Set RawBlock} {cfg : Config} {checkpoints : Checkpoints}
  {s t : ChainState} {chain p q bs : MainChain cx} {b b' : MainBlock cx} {raw : RawBlock}
  {k h : Hash}

theorem rewindable_tracked (cfg : Config) (checkpoints : Checkpoints) :
    Rewindable U (fun s (chain : MainChain cx) => Tracked cfg checkpoints s chain) :=
  fun hsound hp h hoff =>
    ⟨rewindable_ledgered hsound hp h.toLedgered hoff,h.trimmed.takenOff hoff⟩

theorem stable_tracked (cfg : Config) (hT : UniqueTxIds cx U) (hfree : ReplayFree checkpoints U) :
    Stable U (fun s (chain : MainChain cx) => Tracked cfg checkpoints s chain) where
  push {s chain b d prev} hsound h hprev hknown hcheck hfresh := by
    refine ⟨(stable_ledgered hT hfree).push hsound h.toLedgered hprev hknown hcheck hfresh,?_⟩
    rw [List.length_append, List.length_singleton]
    exact h.trimmed.grew (grew_afterPush s chain b) rfl
  takeOff hsound hp h hoff := rewindable_tracked cfg checkpoints hsound hp h hoff.toTakenOff
  branches alts unwound h :=
    ⟨(stable_ledgered hT hfree).branches alts unwound h.toLedgered,h.trimmed.congr rfl rfl⟩

theorem Tracked.atClock (h : Tracked cfg checkpoints s chain) (now : Nat) :
    Tracked cfg checkpoints (s.atClock now) chain :=
  ⟨h.toLedgered.congr rfl { h.configured with },h.trimmed.congr rfl rfl⟩

theorem genesis_tracked {g : MainBlock cx} (hg : IsGenesis g) (cfg : Config)
    (checkpoints : Checkpoints) (clock : Nat) :
    Tracked cfg checkpoints ((ChainState.openEmpty cfg checkpoints clock).afterPush [] g) [g] :=
  ⟨genesis_ledgered hg cfg checkpoints clock,(genesis_settled hg cfg checkpoints clock).trimmed⟩

theorem SameBody.images_eq (hsame : SameBody b b') (hb : WellSpent b) (hb' : WellSpent b') :
    b'.images = b.images := by
  have htxs : b'.transactions = b.transactions := by
    have hparsed := b'.transactionsParsed
    rw [hsame.1, hsame.2.1, b.transactionsParsed] at hparsed
    exact (Except.ok.inj hparsed).symm
  rw [hb.images, hb'.images, MainBlock.spent, MainBlock.spent, htxs]

theorem SameBody.txHashes_eq (hsame : SameBody b b') : b'.txHashes = b.txHashes := by
  have hcoinbase := b'.coinbaseHashed
  rw [hsame.1, b.coinbaseHashed] at hcoinbase
  rw [MainBlock.txHashes, MainBlock.txHashes, hsame.1, Except.ok.inj hcoinbase]

theorem within_of_sameBody {done done' : MainChain cx} (rest : MainChain cx)
    (hall : List.Forall₂ SameBody done done')
    (hold : ∀ b ∈ p ++ (done ++ rest), WellSpent b) (hnew : ∀ b ∈ p ++ done', WellSpent b) :
    MainChain.Within (p ++ done') (p ++ (done ++ rest)) := by
  have hback : ∀ b' ∈ done', ∃ b ∈ done, SameBody b b' := by
    intro b' hb'
    obtain ⟨i,hi⟩ := List.getElem?_of_mem hb'
    obtain ⟨hlt,heq⟩ := List.getElem?_eq_some_iff.1 hi
    have hlt' : i < done.length := by rw [hall.length_eq]; exact hlt
    refine ⟨done[i],List.getElem_mem hlt',?_⟩
    rw [← heq]
    exact List.forall₂_iff_get.1 hall |>.2 i hlt' hlt
  constructor
  · rintro k ⟨b',hb',hk⟩
    rcases List.mem_append.1 hb' with hp | hdone
    · exact ⟨b',List.mem_append_left _ hp,hk⟩
    · obtain ⟨b,hb,hsame⟩ := hback b' hdone
      have hmem : b ∈ p ++ (done ++ rest) := by simp [hb]
      rw [hsame.images_eq (hold b hmem) (hnew b' hb')] at hk
      exact ⟨b,hmem,hk⟩
  · rintro h ⟨b',hb',hh⟩
    rcases List.mem_append.1 hb' with hp | hdone
    · exact ⟨b',List.mem_append_left _ hp,hh⟩
    · obtain ⟨b,hb,hsame⟩ := hback b' hdone
      rw [hsame.txHashes_eq] at hh
      exact ⟨b,by simp [hb],hh⟩

/-- The index of a block fits in 32 bits, so a branch is never longer than the records a
daemon keeps. -/
theorem Sound.branch_length_lt (hsound : Sound U s (p ++ bs)) (hp : p ≠ []) :
    bs.length ≤ 2^32 - 1 := by
  have hlen := List.length_pos_iff.2 hp
  cases hlast : (p ++ bs)[(p ++ bs).length - 1]? with
  | none =>
    have hnone := List.getElem?_eq_none_iff.1 hlast
    simp only [List.length_append] at hnone
    omega
  | some b =>
    have hheight := hsound.linked.height _ b hlast
    have hlt := (BlockTemplate.fromBytes_wellFormed b.parsed).coinbaseHeight_lt hheight
    simp only [List.length_append] at hlt
    omega

variable {e : ChainError}

theorem SwitchFailed.within {hash : Hash} (hserves : cfg.Serves)
    (h : Kept U (Tracked cfg checkpoints) s chain)
    (hfailed : SwitchFailed cx U (Tracked cfg checkpoints) s chain hash e t) :
    ∃ chain', Kept U (Tracked cfg checkpoints) t chain' ∧
      MainChain.Within chain' chain := by
  cases hfailed with
  | noBranch | belowFloor | noBody => exact ⟨chain,h,.refl _⟩
  | undone p q bs done rest failedAt e e' v t w hchain hp hbodies hoff hgrew hbranch hfloor hbuilt
      hkept hsame href hback =>
    subst hchain
    cases hback with
    | stuck bs₁ bs₂ b t hbs hkept' hnot _ =>
      have hcfg : s.cfg = cfg := h.inv.configured.cfg
      have hundo : s.cfg.CanUndo bs.length q.length := by
        rw [hcfg]
        refine .inr (.inl ?_)
        rw [hserves.unwindHistory]
        exact hkept.sound.branch_length_lt hp
      refine absurd (hgrew.knowsRefs h.sound h.inv.trimmed hfloor hp hbodies hoff.env.cfg hundo
        (by simp) ?_) hnot
      rw [hbs]
      simp
    | refused done done' rest b e' t hq hdone hkept' _ _ =>
      subst hq
      exact ⟨_,hkept',within_of_sameBody _ hdone h.inv.wellSpent hkept'.inv.wellSpent⟩
    | restored q' t u hall hoff' hgrew' hkept' _ _ _ =>
      have hold : ∀ b ∈ p ++ (q ++ []), WellSpent b := by simpa using h.inv.wellSpent
      have hwithin := within_of_sameBody [] hall hold hkept'.inv.wellSpent
      exact ⟨_,hkept',by simpa using hwithin⟩

theorem AddRefused.within (hserves : cfg.Serves)
    (h : Kept U (Tracked cfg checkpoints) s chain)
    (href : AddRefused cx U (Tracked cfg checkpoints) s chain raw e t) :
    ∃ chain', Kept U (Tracked cfg checkpoints) t chain' ∧
      MainChain.Within chain' chain := by
  cases href with
  | switch block hash prev d parentAlt fork infos info e t hpass hlt hkept hfailed =>
    exact hfailed.within hserves hkept
  | unparsed | unhashed | held | orphan | main | noBranch | alternative =>
    exact ⟨chain,h,.refl _⟩

theorem addBlock_of_detailed {report : AddReport}
    (h : ChainState.addBlockDetailed cx raw s = .ok report t) :
    ChainState.addBlock cx raw s = .ok report.outcome t := by
  unfold ChainState.addBlock
  rw [run_bind_of_ok h]
  rfl

theorem addBlock_of_detailed_error
    (h : ChainState.addBlockDetailed cx raw s = .error e t) :
    ChainState.addBlock cx raw s = .error e t := by
  unfold ChainState.addBlock
  rw [run_bind_of_error h]

/-- What the main chain spends after a block that was accepted, by its status. -/
structure Brings (raw : RawBlock) (status : AddStatus) (chain chain' : MainChain cx) : Prop where
  alternative : status = .alternative → chain' = chain
  main : status = .main → ∃ b, b.raw = raw ∧ chain' = chain ++ [b]

theorem addBlockDetailed_brings (hU : UniqueIds cx U) (hT : UniqueTxIds cx U)
    (hfree : ReplayFree checkpoints U) (hserves : cfg.Serves)
    (h : Kept U (Tracked cfg checkpoints) s chain) (hknown : raw ∈ U) :
    Ensures (ChainState.addBlockDetailed cx raw) s
      (fun report t => ∃ chain', Kept U (Tracked cfg checkpoints) t chain' ∧
        Brings raw report.outcome.status chain chain')
      (fun _ t => ∃ chain', Kept U (Tracked cfg checkpoints) t chain' ∧
        MainChain.Within chain' chain) := by
  have hI : Stable U (fun s (chain : MainChain cx) => Tracked cfg checkpoints s chain) :=
    stable_tracked cfg hT hfree
  have hspec := addBlock_spec hU hI h hknown
  cases hrun : ChainState.addBlockDetailed cx raw s with
  | error e t =>
    refine Ensures.of_error hrun ?_
    exact (hspec.of_error_of_eq (addBlock_of_detailed_error hrun)).within hserves (h.cleared hI)
  | ok report t =>
    refine Ensures.of_ok hrun ?_
    obtain ⟨exclude,u,_,haccepted,rfl⟩ := hspec.of_ok_of_eq (addBlock_of_detailed hrun)
    generalize report.outcome = outcome at haccepted ⊢
    cases haccepted with
    | main prev d b hpres hraw hprev hparent hcheck hkept =>
      exact ⟨_,(hkept.pruned hI none).cleared hI,⟨(nomatch ·),fun _ => ⟨b,hraw,rfl⟩⟩⟩
    | alternative block hash prev d parentAlt fork infos info hpass hle hkept =>
      exact ⟨_,(hkept.pruned hI (some hash)).cleared hI,⟨fun _ => rfl,(nomatch ·)⟩⟩
    | switched block hash prev d parentAlt fork infos info hpass hlt hkept t p q bs branch hchain
        hswitched =>
      exact ⟨_,(hswitched.kept.pruned hI (some hash)).cleared hI,⟨(nomatch ·),(nomatch ·)⟩⟩

end

end Wrkz
