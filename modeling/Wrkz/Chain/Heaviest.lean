import Wrkz.Chain.Delivery

/-!
The heaviest valid chain. A chain is fully valid when a fresh node that is offered
nothing else takes every block of it. After a delivery the main chain is a fully
valid chain of the blocks delivered, and none of those is heavier.
-/

set_option autoImplicit false

namespace Wrkz

open Library ChainState List

/-- A node that is offered the blocks takes each of them on its main chain. -/
def FullyValid (cx : Crypto) (clock : Nat) (s₀ : ChainState) (rs : List RawBlock) : Prop :=
  Along (fun before r => Ensures (addBlock cx r)
    ((deliver cx clock before s₀).atClock clock)
    (fun outcome _ => outcome.status = .main) (fun _ _ => False)) rs

structure SameMainChain (s t : ChainState) : Prop where
  tip : t.tip = s.tip
  tipInfo : t.tipInfo = s.tipInfo
  infos : ∀ i, t.blockInfo i = s.blockInfo i
  bodies : ∀ i, t.rawBlock i = s.rawBlock i

/-- The main chain of `s` is one of the heaviest fully valid chains of the blocks. -/
structure HeaviestOf (cx : Crypto) (clock : Nat) (s₀ : ChainState) (raws : List RawBlock)
    (s : ChainState) : Prop where
  valid : ∃ rs, rs ⊆ raws ∧ FullyValid cx clock s₀ rs ∧ SameMainChain (deliver cx clock rs s₀) s
  maximal : ∀ rs, rs ⊆ raws → FullyValid cx clock s₀ rs →
    (deliver cx clock rs s₀).mainCumulative ≤ s.mainCumulative

/-- An order of delivery: parents first, never too many branch blocks to hold, and
cumulative difficulty does not wrap. -/
structure Delivery (cx : Crypto) (clock : Nat) (s₀ : ChainState) (raws : List RawBlock) :
    Prop where
  parentsFirst : ParentsFirst cx raws
  fits : FitsAlong cx clock raws s₀
  rising : AllAlong cx ChainState.Rising (raws.map (Call.addBlock clock)) s₀

section

variable {cx : Crypto} {U : Set RawBlock} {cfg : Config} {checkpoints : Checkpoints}
  {now clock : Nat} {s t s₀ : ChainState} {chain c : MainChain cx} {b g : MainBlock cx}
  {x : Hash} {infos : List BlockInfo} {r : RawBlock} {raws rs : List RawBlock}

theorem deliver_concat (cx : Crypto) (clock : Nat) (raws : List RawBlock) (r : RawBlock)
    (s : ChainState) : deliver cx clock (raws ++ [r]) s =
      finalState (addBlock cx r ((deliver cx clock raws s).atClock clock)) := by
  unfold deliver
  rw [map_append, map_singleton, runCalls_concat]
  rfl

theorem Valid.of_grove (h : Grove cfg checkpoints now U s chain) (hg : IsGenesis g)
    (hhead : chain.head? = some g) : Valid cfg checkpoints now g U chain :=
  ⟨hg,hhead,h.kept.sound.linked,h.kept.inv.certified,h.kept.inv.wellSpent⟩

section

theorem raw_mem_of_addBlock (call : Call) (hcall : call ∈ raws.map (Call.addBlock clock))
    (raw : RawBlock) (hraw : call.raw? = some raw) : raw ∈ raws := by
  obtain ⟨r,hr,rfl⟩ := mem_map.1 hcall
  cases hraw
  exact hr

variable (hkeeps : cfg.KeepsBodies) (hzone : ∀ i, checkpoints.isInCheckpointZone i = false)
  (hopen : openOrGenesis cx cfg checkpoints clock = .ok ⟨⟩ s₀)
include hkeeps hzone hopen

theorem deliver_bodies
    (hU : UniqueIds cx (blocksOf cx raws)) (hT : UniqueTxIds cx (blocksOf cx raws))
    (hholds : HoldsTables (deliver cx clock raws s₀) chain) :
    ∀ i, i < chain.length → (deliver cx clock raws s₀).HasBody i := by
  obtain ⟨chain',hrec⟩ := runCalls_recorded hopen hU hT hzone hkeeps.pruneDepth
    raw_mem_of_addBlock
  intro i hi
  refine hrec.inv.hasBody hkeeps ?_
  rw [hholds.length_eq hrec.sound.holds.toHoldsTables]
  exact hi

theorem deliver_holdsValid (hg : IsGenesis g)
    (hs : s₀ = (openEmpty cfg checkpoints clock).afterPush [] g)
    (hB : UniqueBlocks cx (blocksOf cx raws)) (hT : UniqueTxIds cx (blocksOf cx raws))
    (hfirst : ParentsFirst cx raws) (hfits : FitsAlong cx clock raws s₀) :
    ∃ chain : MainChain cx,
      Grove cfg checkpoints clock (blocksOf cx raws) (deliver cx clock raws s₀) chain ∧
      HoldsValid cfg checkpoints clock g (blocksOf cx raws) (deliver cx clock raws s₀) chain ∧
      chain.head? = some g := by
  induction raws using reverseRecOn with
  | nil =>
    refine ⟨[g],genesis_grove hg cfg checkpoints clock [] hs,?_,rfl⟩
    intro c hc b hb
    -- nothing but genesis has been given
    have honly : c = [g] := by
      cases c with
      | nil => exact absurd rfl hc.nonempty
      | cons g' c =>
        have hg' : g' = g := Option.some.inj hc.head
        cases c with
        | nil => rw [hg']
        | cons d c =>
          rcases hc.linked.known d (by simp) with hmem | hgen
          · simp at hmem
          · exact (hc.not_genesis (i := 0) rfl hgen).elim
    subst honly
    simp only [getLast?_singleton, Option.some.injEq] at hb
    subst hb
    exact Lineage.of_split (p := []) g []
  | append_singleton raws r ih =>
    obtain ⟨hfirst',_⟩ := along_concat.1 hfirst
    obtain ⟨hfits',hfitsr⟩ := along_concat.1 hfits
    have hsub : blocksOf cx raws ⊆ blocksOf cx (raws ++ [r]) :=
      blocksOf_mono (subset_append_left raws [r])
    have hB' := hB.mono hsub
    have hT' := hT.mono hsub
    obtain ⟨chain,hgrove,hheld,hhead⟩ := ih hB' hT' hfirst' hfits'
    have hbodies := deliver_bodies hkeeps hzone hopen hB'.uniqueIds hT'
      hgrove.kept.sound.holds.toHoldsTables
    have hparents : ∀ r' ∈ raws, ∀ h ∈ r'.parent?,
        (genesisBlockHash cx).toOption = some h ∨ ∃ r'' ∈ raws, r''.id? cx = some h := by
      intro r' hr' h hh
      obtain ⟨before,hbefore,hparent⟩ := hfirst'.mem hr'
      refine (hparent h hh).imp_right fun hex => ?_
      obtain ⟨r'',hr'',hid⟩ := hex
      exact ⟨r'',hbefore hr'',hid⟩
    have hbodies' : ∀ i, i < chain.length →
        ((deliver cx clock raws s₀).atClock clock).HasBody i := hbodies
    rw [deliver_concat]
    obtain ⟨chain',hgrove',hheld',hhead'⟩ := (hgrove.atClock (Nat.le_refl clock)).deliver hB hT
      (.of_noZone _ hzone) hparents hkeeps hbodies' hfitsr hheld
    exact ⟨chain',hgrove',hheld',hhead'.trans hhead⟩

end

theorem AddAccepted.fed {outcome : AddOutcome} {exclude : Option Hash}
    (h : Grove cfg checkpoints now U s chain) (hnone : s.altBlocks = ∅)
    (hacc : AddAccepted cx U (Settled cfg checkpoints now) s chain r outcome exclude t)
    (hstatus : outcome.status = .main) :
    ∃ b : MainBlock cx, b.raw = r ∧ Grove cfg checkpoints now U t (chain ++ [b]) ∧
      t.altBlocks = ∅ := by
  cases hacc with
  | main prev d b hpres hraw hprev hparent hcheck hkept =>
    exact ⟨b,hraw,h.push hpres.fresh hkept,hnone⟩
  | alternative => cases hstatus
  | switched => cases hstatus

theorem AltBlocks.prune_empty (tip : Nat) (exclude : Option Hash) :
    AltBlocks.prune tip exclude ∅ = ∅ :=
  AltBlocks.prune_of_fits ⟨by decide,by decide,by simp [AltBlocks.leaves]⟩ exclude

theorem pruned_altBlocks_empty (h : s.altBlocks = ∅) (exclude : Option Hash) :
    (s.pruned exclude).altBlocks = ∅ := by
  unfold pruned
  cases s.tip with
  | none => exact h
  | some tip =>
    simp only [h]
    exact AltBlocks.prune_empty tip exclude

structure Fed (cfg : Config) (checkpoints : Checkpoints) (clock : Nat) (g : MainBlock cx)
    (U : Set RawBlock) (s : ChainState) (rs : List RawBlock) (c : MainChain cx) : Prop where
  grove : Grove cfg checkpoints clock U s c
  noBranch : s.altBlocks = ∅
  blocks : ∃ tail, c = g :: tail ∧ tail.map MainBlock.raw = rs

theorem Fed.of_genesis (hg : IsGenesis g)
    (hs : s₀ = (openEmpty cfg checkpoints clock).afterPush [] g) (raws : List RawBlock) :
    Fed cfg checkpoints clock g (blocksOf cx raws) s₀ [] [g] where
  grove := genesis_grove hg cfg checkpoints clock raws hs
  noBranch := by rw [hs]; rfl
  blocks := ⟨[],rfl,rfl⟩

theorem Fed.valid (h : Fed cfg checkpoints clock g U s rs c) (hg : IsGenesis g) :
    Valid cfg checkpoints clock g U c := by
  refine .of_grove h.grove hg ?_
  obtain ⟨tail,hc,_⟩ := h.blocks
  rw [hc]
  rfl

theorem Fed.concat (hT : UniqueTxIds cx U) (hfree : ReplayFree checkpoints U)
    (h : Fed cfg checkpoints clock g U s rs c) (b : MainBlock cx) (hraw : b.raw = r)
    (hgrove : Grove cfg checkpoints clock U t (c ++ [b])) (hnone : t.altBlocks = ∅)
    (exclude : Option Hash) :
    Fed cfg checkpoints clock g U (t.pruned exclude).cleared (rs ++ [r]) (c ++ [b]) where
  grove := (hgrove.pruned hT hfree exclude).cleared hT hfree
  noBranch := pruned_altBlocks_empty hnone exclude
  blocks := by
    obtain ⟨tail,hc,htail⟩ := h.blocks
    exact ⟨tail ++ [b],by simp [hc],by simp [htail, hraw]⟩

theorem Fed.atClock (h : Fed cfg checkpoints clock g U s rs c) :
    Fed cfg checkpoints clock g U (s.atClock clock) rs c :=
  ⟨h.grove.atClock (Nat.le_refl clock),h.noBranch,h.blocks⟩

theorem FullyValid.fed (hU : UniqueIds cx (blocksOf cx raws)) (hT : UniqueTxIds cx (blocksOf cx raws))
    (hfree : ReplayFree checkpoints (blocksOf cx raws)) (hg : IsGenesis g)
    (hs : s₀ = (openEmpty cfg checkpoints clock).afterPush [] g) (hrs : rs ⊆ raws)
    (h : FullyValid cx clock s₀ rs) :
    ∃ c : MainChain cx, Fed cfg checkpoints clock g (blocksOf cx raws) (deliver cx clock rs s₀) rs
      c := by
  induction rs using reverseRecOn with
  | nil => exact ⟨[g],.of_genesis hg hs raws⟩
  | append_singleton rs r ih =>
    obtain ⟨hrest,hlast⟩ := along_concat.1 h
    obtain ⟨c,hfed⟩ := ih (fun x hx => hrs (mem_append_left _ hx)) hrest
    have hnow := hfed.atClock
    obtain ⟨outcome,t,hrun,hstatus⟩ := hlast.exists_ok
    have hspec := addBlock_spec hU (stable_settled cfg clock hT hfree) hnow.grove.kept
      (.inl (hrs (by simp : r ∈ rs ++ [r])))
    obtain ⟨exclude,u,hacc⟩ := hspec.of_ok_of_eq hrun
    obtain ⟨b,hraw,hgrove,hnone⟩ := hacc.accepted.fed (hnow.grove.cleared hT hfree) hnow.noBranch
      hstatus
    rw [deliver_concat, hrun]
    refine ⟨c ++ [b],?_⟩
    rw [finalState, hacc.final]
    exact hfed.concat hT hfree b hraw hgrove hnone exclude

theorem Fed.located (h : Fed cfg checkpoints clock g U s rs c) (hlinked : Linked U (c ++ [b])) :
    s.locateParent b.block.previousBlockHash = .ok (.mainTip (c.length-1)) ∧
      Lineage s.altBlocks c b.block.previousBlockHash (MainChain.infos c) := by
  have hne := h.grove.kept.sound.nonempty
  obtain ⟨c₀,d,rfl⟩ := eq_nil_or_concat' c |>.resolve_left hne
  have hprev : b.block.previousBlockHash = d.info.blockHash := (Linked.tailOn hlinked (by simp)).2.1
  have hholds := h.grove.kept.sound.holds
  have hget : (c₀ ++ [d])[c₀.length]? = some d := by simp
  have hindex := hholds.toHoldsTables.blockIndexByHash_iff.2 ⟨d,hget,rfl⟩
  have htip : s.tip = some c₀.length := by
    rw [hholds.tip]
    exact MainChain.tip_eq_some_iff.2 (by simp)
  rw [hprev]
  constructor
  · unfold locateParent
    rw [h.noBranch, hindex, htip]
    simp
  · rw [MainChain.infos_append]
    exact Lineage.of_split d []

section

variable (hB : UniqueBlocks cx U) (hT : UniqueTxIds cx U) (hfree : ReplayFree checkpoints U)
  (h : Fed cfg checkpoints clock g U s rs c)
include hB hT hfree h

theorem Fed.takes
    (hvalid : Valid cfg checkpoints clock g U (c ++ [b])) :
    Ensures (addBlock cx b.raw) s
      (fun outcome t => outcome.status = .main ∧
        Fed cfg checkpoints clock g U t (rs ++ [b.raw]) (c ++ [b]))
      (fun _ _ => False) := by
  have hclear := h.grove.cleared hT hfree
  obtain ⟨hlocated,hparent⟩ := h.located hvalid.linked
  have hlocated' : s.cleared.locateParent b.block.previousBlockHash =
      .ok (.mainTip (c.length-1)) := hlocated
  have harrives : Arrives cfg checkpoints clock g U s.cleared c b.raw c b :=
    ⟨rfl,hparent,hvalid,h.grove.kept.sound.nonempty⟩
  have hknown : b.raw ∈ U := hvalid.linked.known b (by simp)
  -- the block is not on the chain yet, and there are no branches
  have hnew : s.cleared.hasBlock b.info.blockHash = false := by
    have hmain : s.blockIndexByHash b.info.blockHash = none := by
      refine Option.eq_none_iff_forall_ne_some.2 fun i hi => ?_
      obtain ⟨d,hd,hhash⟩ := h.grove.kept.sound.holds.toHoldsTables.blockIndexByHash_iff.1 hi
      have hlt := (List.getElem?_eq_some_iff.1 hd).1
      have hraw : d.raw = b.raw := hB _ hknown _
        (h.grove.kept.sound.linked.known d (List.mem_of_getElem? hd)) _ b.id?_eq
        (by rw [← hhash]; exact d.id?_eq)
      have hd' : (c ++ [b])[i]? = some d := by rwa [getElem?_append_left hlt]
      have hb' : (c ++ [b])[c.length]? = some b := by simp
      have := hvalid.linked.index_inj hb' hd' hraw
      omega
    have halts : s.altBlocks.lookup b.info.blockHash = none := by rw [h.noBranch]; rfl
    unfold hasBlock
    have hmain' : s.cleared.blockIndexByHash b.info.blockHash = none := hmain
    have halts' : s.cleared.altBlocks.lookup b.info.blockHash = none := halts
    rw [hmain', halts']
    rfl
  -- so it is not a branch block
  have hnot : ∀ {block : BlockTemplate} {hash : Hash} {prev d fork : Nat}
      {parentAlt : Option Hash} {infos : List BlockInfo} {info : BlockInfo},
      ¬ PassedAlternative cx s.cleared b.raw block hash prev parentAlt fork infos info d := by
    intro block hash prev d fork parentAlt infos info hpass
    obtain ⟨rfl,_⟩ := harrives.presented hpass.presented.parsed hpass.presented.hashed
    have hbranch := hpass.located
    rw [hlocated'] at hbranch
    cases parentAlt <;> cases hbranch
  refine (addBlock_spec hB.uniqueIds (stable_settled cfg clock hT hfree) h.grove.kept hknown).mono
    ?_ ?_
  · rintro outcome t ⟨exclude,u,_,hacc,rfl⟩
    cases hacc with
    | main prev d b' hpres hraw hprev hparent' hcheck hkept =>
      refine ⟨rfl,?_⟩
      obtain ⟨hblock,hhash⟩ := harrives.presented hpres.parsed hpres.hashed
      have hacc' : AcceptedOn cfg checkpoints clock c b' := by
        refine ⟨s.cleared,d,hclear.kept.inv.nodeAt hclear.kept.sound,
          Nat.le_of_eq hclear.kept.inv.clock,?_⟩
        rw [hraw, ← hprev, Nat.add_sub_cancel]
        exact hcheck
      have heq : b' = b := harrives.accepted.eq_of_sameBody hacc' ⟨hblock,hraw,hhash⟩
      subst heq
      exact h.concat hT hfree b' rfl (hclear.push hpres.fresh hkept) h.noBranch none
    | alternative block hash prev d parentAlt fork infos info hpass hle hkept => exact absurd hpass hnot
    | switched block hash prev d parentAlt fork infos info hpass hlt hkept t p q bs branch hchain
        hswitched => exact absurd hpass hnot
  · intro e t href
    obtain ⟨block,hash,prev,k,parentAlt,fork,infos,info,hpass,_,_⟩ :=
      harrives.not_refused hB hclear hnew href
    exact hnot hpass

/-- A node takes the blocks of a valid chain that goes on from its own. -/
theorem Fed.feed :
    ∀ q : MainChain cx, Valid cfg checkpoints clock g U (c ++ q) →
      FullyValid cx clock s (q.map MainBlock.raw) ∧
      Fed cfg checkpoints clock g U (deliver cx clock (q.map MainBlock.raw) s)
        (rs ++ q.map MainBlock.raw) (c ++ q) := by
  intro q
  induction q using reverseRecOn with
  | nil =>
    rw [map_nil, append_nil, append_nil]
    exact fun _ => ⟨along_nil,h⟩
  | append_singleton q b ih =>
    intro hvalid
    rw [← append_assoc] at hvalid ⊢
    obtain ⟨hfully,hfed⟩ := ih (hvalid.of_append (by simp [h.grove.kept.sound.nonempty]))
    have htakes := hfed.atClock.takes hB hT hfree hvalid
    rw [map_append, map_singleton, deliver_concat, ← append_assoc]
    refine ⟨along_concat.2 ⟨hfully,htakes.mono (fun _ _ h => h.1) fun _ _ h => h⟩,?_⟩
    obtain ⟨outcome,t,hrun,_,hnext⟩ := htakes.exists_ok
    rw [hrun]
    exact hnext

end

theorem Lineage.le_main (hholds : HoldsTables s chain) (hrising : s.Rising) (hheavy : s.Heaviest)
    (h : Lineage s.altBlocks chain x infos) :
    ∀ info, infos.getLast? = some info → info.cumulativeDifficulty ≤ s.mainCumulative := by
  intro info hinfo
  cases h with
  | @main i d hd =>
    have hlt := (List.getElem?_eq_some_iff.1 hd).1
    have hlast : (chain.take (i+1)).getLast? = some d := by
      rw [List.getLast?_eq_getElem?, List.length_take,
        show min (i+1) chain.length - 1 = i by omega, getElem?_take_of_lt (by omega)]
      exact hd
    rw [MainChain.infos, getLast?_map, hlast] at hinfo
    cases hinfo
    exact hrising.le_main hholds d (mem_of_getElem? hd)
  | @alt _ a infos ha _ =>
    simp only [getLast?_concat, Option.some.injEq] at hinfo
    subst hinfo
    exact hheavy x a ha

theorem Fed.mainCumulative_eq (h : Fed cfg checkpoints clock g U s rs c)
    (hlast : c.getLast? = some b) : s.mainCumulative = b.info.cumulativeDifficulty :=
  Wrkz.mainCumulative_eq h.grove.kept.sound.holds.toHoldsTables hlast

theorem SameMainChain.mainCumulative_eq (h : SameMainChain s t) :
    t.mainCumulative = s.mainCumulative := by
  unfold mainCumulative
  rw [h.tipInfo]

theorem HoldsTables.sameMainChain (hs : HoldsTables s chain) (ht : HoldsTables t chain)
    (hcfg : t.cfg = s.cfg) (hbodies : ∀ i, i < chain.length → s.HasBody i)
    (hbodies' : ∀ i, i < chain.length → t.HasBody i) : SameMainChain s t where
  tip := ht.tip.trans hs.tip.symm
  tipInfo := by rw [hs.tipInfo_eq, ht.tipInfo_eq]
  infos i := by rw [hs.blockInfo_eq, ht.blockInfo_eq]
  bodies i := by
    have hiff : t.HasBody i ↔ s.HasBody i :=
      ⟨fun h => hbodies i (ht.hasBody_lt h),fun h => hbodies' i (hs.hasBody_lt h)⟩
    unfold rawBlock
    rw [hcfg, ht.tip, hs.tip, hs.rawBlock_congr ht hiff]

theorem deliver_heaviestOf (hkeeps : cfg.KeepsBodies)
    (hzone : ∀ i, checkpoints.isInCheckpointZone i = false)
    (hopen : openOrGenesis cx cfg checkpoints clock = .ok ⟨⟩ s₀)
    (hB : UniqueBlocks cx (blocksOf cx raws)) (hT : UniqueTxIds cx (blocksOf cx raws))
    (h : Delivery cx clock s₀ raws) : HeaviestOf cx clock s₀ raws (deliver cx clock raws s₀) := by
  have hfree : ReplayFree checkpoints (blocksOf cx raws) := .of_noZone _ hzone
  obtain ⟨g,hg,hs⟩ := openOrGenesis_eq hopen
  obtain ⟨chain,hgrove,hheld,hhead⟩ := deliver_holdsValid hkeeps hzone hopen hg hs hB hT
    h.parentsFirst h.fits
  have hholds := hgrove.kept.sound.holds.toHoldsTables
  have hvalid := Valid.of_grove hgrove hg hhead
  constructor
  · obtain ⟨tail,rfl⟩ : ∃ tail, chain = g :: tail := by
      cases chain with
      | nil => cases hhead
      | cons g' tail => exact ⟨tail,by rw [Option.some.inj hhead]⟩
    obtain ⟨hfully,hfed⟩ := (Fed.of_genesis hg hs raws).feed hB hT hfree tail hvalid
    have hsub : tail.map MainBlock.raw ⊆ raws := by
      intro r hr
      obtain ⟨b,hb,rfl⟩ := mem_map.1 hr
      obtain ⟨i,hi⟩ := getElem?_of_mem hb
      refine (hvalid.linked.known b (mem_cons_of_mem _ hb)).resolve_right fun hgen => ?_
      exact hvalid.not_genesis (i := i) (by simpa using hi) hgen
    refine ⟨tail.map MainBlock.raw,hsub,hfully,?_⟩
    have hholds' := hfed.grove.kept.sound.holds.toHoldsTables
    refine hholds'.sameMainChain hholds ?_ ?_ ?_
    · rw [hgrove.kept.inv.configured.cfg, hfed.grove.kept.inv.configured.cfg]
    · have hmono : blocksOf cx (tail.map MainBlock.raw) ⊆ blocksOf cx raws := blocksOf_mono hsub
      exact deliver_bodies hkeeps hzone hopen (hB.mono hmono).uniqueIds (hT.mono hmono) hholds'
    · exact deliver_bodies hkeeps hzone hopen hB.uniqueIds hT hholds
  · intro rs hrs hfully
    obtain ⟨c,hfed⟩ := FullyValid.fed hB.uniqueIds hT hfree hg hs hrs hfully
    obtain ⟨c₀,b,rfl⟩ := eq_nil_or_concat' c |>.resolve_left hfed.grove.kept.sound.nonempty
    have hlast : (c₀ ++ [b]).getLast? = some b := by simp
    have hlineage := hheld _ (hfed.valid hg) b hlast
    have hclock : (clock :: (raws.map (Call.addBlock clock)).map Call.now).Pairwise (· ≤ ·) := by
      have hall : ∀ n ∈ clock :: (raws.map (Call.addBlock clock)).map Call.now, n = clock := by
        intro n hn
        simp only [map_map, mem_cons, mem_map] at hn
        rcases hn with rfl | ⟨r,_,rfl⟩
        · rfl
        · rfl
      refine pairwise_of_forall_mem_list fun m hm n hn => ?_
      rw [hall m hm, hall n hn]
    have hheavy := runCalls_heaviest hkeeps hzone hopen hB.uniqueIds hT
      raw_mem_of_addBlock hclock h.rising
    rw [hfed.mainCumulative_eq hlast]
    refine hlineage.le_main hholds h.rising.last hheavy b.info ?_
    rw [MainChain.infos, getLast?_map, hlast]
    rfl

end

/-- Whatever the order of delivery, the node ends on one of the heaviest valid chains;
so two orders end with the same cumulative difficulty. -/
theorem deliver_heaviest {cx : Crypto} {cfg : Config} {checkpoints : Checkpoints} {clock : Nat}
    {s₀ : ChainState} {raws : List RawBlock} (hkeeps : cfg.KeepsBodies)
    (hzone : ∀ i, checkpoints.isInCheckpointZone i = false)
    (hopen : openOrGenesis cx cfg checkpoints clock = .ok ⟨⟩ s₀)
    (hB : UniqueBlocks cx (blocksOf cx raws)) (hT : UniqueTxIds cx (blocksOf cx raws))
    (h : Delivery cx clock s₀ raws) :
    HeaviestOf cx clock s₀ raws (deliver cx clock raws s₀) ∧
      ∀ raws', Delivery cx clock s₀ raws' → (∀ r, r ∈ raws' ↔ r ∈ raws) →
        (deliver cx clock raws' s₀).mainCumulative = (deliver cx clock raws s₀).mainCumulative := by
  have hbest := deliver_heaviestOf hkeeps hzone hopen hB hT h
  refine ⟨hbest,?_⟩
  intro raws' h' hsame
  have hsub : blocksOf cx raws' ⊆ blocksOf cx raws := blocksOf_mono fun r hr => (hsame r).1 hr
  have hbest' := deliver_heaviestOf hkeeps hzone hopen (hB.mono hsub) (hT.mono hsub) h'
  obtain ⟨rs,hrs,hfully,hmain⟩ := hbest.valid
  obtain ⟨rs',hrs',hfully',hmain'⟩ := hbest'.valid
  refine Nat.le_antisymm ?_ ?_
  · rw [hmain'.mainCumulative_eq]
    exact hbest.maximal rs' (fun r hr => (hsame r).1 (hrs' hr)) hfully'
  · rw [hmain.mainCumulative_eq]
    exact hbest'.maximal rs (fun r hr => (hsame r).2 (hrs hr)) hfully

theorem uniqueBlocks_iff (cx : Crypto) (raws : List RawBlock) :
    UniqueBlocks cx (blocksOf cx raws) ↔ ∀ r ∈ genesisRaws cx ++ raws,
      ∀ r' ∈ genesisRaws cx ++ raws, r.id? cx = r'.id? cx → r' = r ∨ r.id? cx = none := by
  have hmem : ∀ r, r ∈ genesisRaws cx ++ raws ↔ r ∈ blocksOf cx raws := by
    intro r
    rw [mem_append, mem_genesisRaws, or_comm]
    rfl
  constructor
  · intro h r hr r' hr' heq
    cases hid : r.id? cx with
    | none => exact .inr rfl
    | some x =>
      exact .inl (h r ((hmem r).1 hr) r' ((hmem r').1 hr') x hid (heq.symm.trans hid))
  · intro h r hr r' hr' x hx hx'
    rcases h r ((hmem r).2 hr) r' ((hmem r').2 hr') (hx.trans hx'.symm) with heq | hnone
    · exact heq
    · rw [hx] at hnone
      cases hnone

instance (cx : Crypto) (raws : List RawBlock) : Decidable (UniqueBlocks cx (blocksOf cx raws)) :=
  decidable_of_iff _ (uniqueBlocks_iff cx raws).symm

/-- A main chain block and two blocks of the branch that stands still. -/
def sampleFork : List RawBlock :=
  (sampleMain.take 1 ++ sampleHeavyBranch.take 2).map Prod.snd

def sampleForkTurned : List RawBlock :=
  (sampleHeavyBranch.take 2 ++ sampleMain.take 1).map Prod.snd

theorem sampleFork_delivery : Delivery sampleCrypto 1000 (sampleNode {} .none 1000) sampleFork :=
  ⟨by unfold ParentsFirst; decide +kernel,by unfold FitsAlong; decide +kernel,by decide +kernel⟩

theorem sampleForkTurned_delivery :
    Delivery sampleCrypto 1000 (sampleNode {} .none 1000) sampleForkTurned :=
  ⟨by unfold ParentsFirst; decide +kernel,by unfold FitsAlong; decide +kernel,by decide +kernel⟩

/-- The second branch block is followed in one order and extends the main chain in
the other. -/
theorem deliver_heaviest_sample :
    let s₀ := sampleNode {} .none 1000
    HeaviestOf sampleCrypto 1000 s₀ sampleFork (deliver sampleCrypto 1000 sampleFork s₀) ∧
      (deliver sampleCrypto 1000 sampleForkTurned s₀).mainCumulative =
        (deliver sampleCrypto 1000 sampleFork s₀).mainCumulative := by
  intro s₀
  obtain ⟨hbest,hsame⟩ := deliver_heaviest ⟨rfl,rfl,rfl⟩ Checkpoints.none_isInCheckpointZone
    (sampleNode_open {} .none 1000) (by decide +kernel) (by decide +kernel) sampleFork_delivery
  refine ⟨hbest,hsame sampleForkTurned sampleForkTurned_delivery fun r => ?_⟩
  simp only [sampleFork, sampleForkTurned, List.map_append, List.mem_append]
  exact or_comm

end Wrkz
