import Wrkz.Chain.Grove

/-!
Chain selection. No branch is heavier than the main chain after any call, and the
main chain never gets lighter, as long as the clock does not go back. When it does,
a failed switch may be unable to put the old tail back.
-/

set_option autoImplicit false

namespace Wrkz

open Library List

def ChainState.Rising (s : ChainState) : Prop :=
  ∀ i < s.tip.getD 0, ∀ below ∈ s.blockInfo i, ∀ above ∈ s.blockInfo (i+1),
    below.cumulativeDifficulty ≤ above.cumulativeDifficulty

instance : DecidablePred ChainState.Rising := fun s =>
  inferInstanceAs (Decidable (∀ i < s.tip.getD 0, ∀ below ∈ s.blockInfo i,
    ∀ above ∈ s.blockInfo (i+1), below.cumulativeDifficulty ≤ above.cumulativeDifficulty))

def ChainState.Heaviest (s : ChainState) : Prop :=
  ∀ x alt, s.altBlocks.lookup x = some alt → alt.info.cumulativeDifficulty ≤ s.mainCumulative

section

variable {cx : Crypto} {U : Set RawBlock} {cfg : Config} {checkpoints : Checkpoints}
  {now clock : Nat} {s t s₀ : ChainState} {chain chain' : MainChain cx} {raw : RawBlock}
  {calls : List Call} {b : MainBlock cx}

theorem mainCumulative_eq (h : HoldsTables s chain) (hlast : chain.getLast? = some b) :
    s.mainCumulative = b.info.cumulativeDifficulty := by
  unfold ChainState.mainCumulative
  rw [h.tipInfo_eq, hlast]
  rfl

theorem ChainState.Rising.le_main (hrising : s.Rising) (h : HoldsTables s chain) :
    ∀ c ∈ chain, c.info.cumulativeDifficulty ≤ s.mainCumulative := by
  have hstep : ∀ k i c, chain[i]? = some c → i + k + 1 = chain.length →
      c.info.cumulativeDifficulty ≤ s.mainCumulative := by
    intro k
    induction k with
    | zero =>
      intro i c hc hi
      have hlast : chain.getLast? = some c := by
        rw [getLast?_eq_getElem?, show chain.length - 1 = i by omega]
        exact hc
      rw [mainCumulative_eq h hlast]
    | succ k ih =>
      intro i c hc hi
      have hlt : i + 1 < chain.length := by omega
      have habove := getElem?_eq_getElem hlt
      refine Nat.le_trans ?_ (ih (i+1) _ habove (by omega))
      have htip : s.tip = some (chain.length-1) := by
        rw [h.tip]
        exact MainChain.tip_eq_some_iff.2 (by omega)
      refine hrising i (by rw [htip, Option.getD_some]; omega) _ ?_ _ ?_
      · rw [h.blockInfo_eq, hc]
        rfl
      · rw [h.blockInfo_eq, habove]
        rfl
  intro c hc
  obtain ⟨i,hi⟩ := List.getElem?_of_mem hc
  have hlt := (List.getElem?_eq_some_iff.1 hi).1
  exact hstep (chain.length - 1 - i) i c hi (by omega)

theorem Moves.heaviest (hmoves : Moves s chain t chain') (hs : HoldsTables s chain)
    (ht : HoldsTables t chain') (hrising : s.Rising) (hrising' : t.Rising)
    (hkeeps : s.cfg.KeepsBodies) (hbodies : ∀ i, i < chain.length → s.HasBody i) (hne : chain ≠ [])
    (h : s.Heaviest) : t.Heaviest ∧ s.mainCumulative ≤ t.mainCumulative := by
  obtain ⟨tip,htip⟩ := getLast?_isSome.2 hne |> Option.isSome_iff_exists.1
  have hsame : ∀ {t : ChainState}, HoldsTables t chain → t.mainCumulative = s.mainCumulative := by
    intro t ht
    rw [mainCumulative_eq ht htip, mainCumulative_eq hs htip]
  cases hmoves with
  | stays halts =>
    rw [hsame ht]
    refine ⟨fun x a ha => ?_,Nat.le_refl _⟩
    rw [hsame ht]
    exact h x a (halts x a ha)
  | grows b halts =>
    have hle : s.mainCumulative ≤ t.mainCumulative := by
      rw [mainCumulative_eq hs htip]
      exact hrising'.le_main ht tip (mem_append_left _ (mem_of_getLast? htip))
    exact ⟨fun x a ha => (h x a (halts x a ha)).trans hle,hle⟩
  | keeps hash alt hle halts =>
    rw [hsame ht]
    refine ⟨fun x a ha => ?_,Nat.le_refl _⟩
    rw [hsame ht]
    have hold := halts x a ha
    by_cases hx : x = hash
    · rw [hx, AList.lookup_insert] at hold
      cases hold
      exact hle
    · rw [AList.lookup_insert_ne hx] at hold
      exact h x a hold
  | switches p q bs hash alt b hchain hlast hinfo hlt halts =>
    have hmain : t.mainCumulative = alt.info.cumulativeDifficulty := by
      rw [mainCumulative_eq ht hlast, hinfo]
    refine ⟨fun x a ha => ?_,by omega⟩
    rw [hmain]
    rcases halts x a ha with ⟨c,hc,heq⟩ | hold
    · rw [heq]
      have := hrising.le_main hs c (by rw [hchain]; exact mem_append_right _ hc)
      omega
    · by_cases hx : x = hash
      · rw [hx, AList.lookup_insert] at hold
        cases hold
        exact Nat.le_refl _
      · rw [AList.lookup_insert_ne hx] at hold
        have := h x a hold
        omega
  | waits hash alt hwhy halts =>
    rcases hwhy with hnot | ⟨i,hi,hnot⟩
    · exact absurd hkeeps hnot
    · exact absurd (hbodies i hi) hnot

theorem HoldsTables.length_eq (h : HoldsTables s chain) (h' : HoldsTables s chain') :
    chain'.length = chain.length := by
  have htip : chain'.tip = chain.tip := h'.tip.symm.trans h.tip
  cases hc : chain.tip with
  | none =>
    rw [hc] at htip
    rw [MainChain.tip_eq_none_iff.1 htip, MainChain.tip_eq_none_iff.1 hc]
  | some n =>
    rw [hc] at htip
    rw [MainChain.tip_eq_some_iff.1 htip, MainChain.tip_eq_some_iff.1 hc]

theorem Recorded.hasBody (h : Recorded cfg checkpoints s chain) (hkeeps : cfg.KeepsBodies) {i : Nat}
    (hi : i < chain.length) : s.HasBody i := by
  have hbody : s.cfg.keepsBody i i = true := by
    rw [h.configured.cfg]
    simp [Config.keepsBody, hkeeps.storeRawBlocks, hkeeps.liteStartHeight, hkeeps.pruneDepth]
  unfold ChainState.HasBody
  rw [h.bodies i, if_pos hbody, getElem?_eq_getElem hi]
  rfl

theorem Call.run_heaviest (hU : UniqueIds cx U) (hT : UniqueTxIds cx U)
    (hfree : ReplayFree checkpoints U) (hkeeps : cfg.KeepsBodies) {call : Call}
    (hknown : ∀ raw, call.raw? = some raw → raw ∈ U)
    (h : Grove cfg checkpoints call.now U (s.atClock call.now) chain)
    (hrec : Recorded cfg checkpoints s chain') (hlen : chain'.length = chain.length)
    (hrising : s.Rising) (hrising' : (call.run cx s).Rising) (hheavy : s.Heaviest) :
    (call.run cx s).Heaviest ∧
      ((call.raw?).isSome = true → s.mainCumulative ≤ (call.run cx s).mainCumulative) := by
  cases call with
  | addBlock now raw =>
    have hcfg : s.cfg = cfg := hrec.configured.cfg
    have hundo : (s.atClock now).CanUndoSwitch := .inl (by
      show s.cfg.storeRawBlocks = true ∧ s.cfg.pruneDepth = none
      rw [hcfg]
      exact ⟨hkeeps.storeRawBlocks,hkeeps.pruneDepth⟩)
    obtain ⟨chain'',hnext,hmoves⟩ := h.addBlock hU hT hfree hundo (hknown raw rfl)
    obtain ⟨hheavy',hle⟩ := hmoves.heaviest h.kept.sound.holds.toHoldsTables
      hnext.kept.sound.holds.toHoldsTables hrising hrising' (hcfg ▸ hkeeps)
      (fun i hi => hrec.hasBody hkeeps (by omega)) h.kept.sound.nonempty hheavy
    exact ⟨hheavy',fun _ => hle⟩
  | rewindTo now top =>
    obtain ⟨_,_,hsame | hnone⟩ := h.rewindTo top
    · have hsame' : Call.run cx (.rewindTo now top) s = s.atClock now := hsame
      refine ⟨?_,fun hraw => by cases hraw⟩
      rw [hsame']
      exact hheavy
    · have hnone' : (Call.run cx (.rewindTo now top) s).altBlocks = ∅ := hnone
      refine ⟨fun x alt hx => ?_,fun hraw => by cases hraw⟩
      rw [hnone'] at hx
      simp at hx

end

section

variable {cx : Crypto} {cfg : Config} {checkpoints : Checkpoints} {clock : Nat} {s₀ : ChainState}
  {raws : List RawBlock}

variable (hkeeps : cfg.KeepsBodies) (hzone : ∀ i, checkpoints.isInCheckpointZone i = false)
  (hopen : ChainState.openOrGenesis cx cfg checkpoints clock = .ok ⟨⟩ s₀)
  (hU : UniqueIds cx (blocksOf cx raws)) (hT : UniqueTxIds cx (blocksOf cx raws))
include hkeeps hzone hopen hU hT

variable {calls : List Call}

theorem runCalls_canUndoSwitch (hcalls : ∀ c ∈ calls, ∀ raw, c.raw? = some raw → raw ∈ raws) :
    AllAlong cx ChainState.CanUndoSwitch calls s₀ := by
  intro before hinits
  have hbefore : ∀ c ∈ before, ∀ raw, c.raw? = some raw → raw ∈ raws :=
    fun c hc => hcalls c (((mem_inits _ _).1 hinits).subset hc)
  obtain ⟨_,hrec⟩ := runCalls_recorded hopen hU hT hzone hkeeps.pruneDepth hbefore
  refine .inl ?_
  rw [hrec.inv.configured.cfg]
  exact ⟨hkeeps.storeRawBlocks,hkeeps.pruneDepth⟩

/-- The last call of a run, after calls that all kept the main chain heaviest. -/
theorem runCalls_heaviest_step {call : Call}
    (hcalls : ∀ c ∈ calls ++ [call], ∀ raw, c.raw? = some raw → raw ∈ raws)
    (hmono : (clock :: (calls ++ [call]).map Call.now).Pairwise (· ≤ ·))
    (hrising : AllAlong cx ChainState.Rising (calls ++ [call]) s₀)
    (hheavy : (runCalls cx calls s₀).Heaviest) :
    (call.run cx (runCalls cx calls s₀)).Heaviest ∧
      ((call.raw?).isSome = true → (runCalls cx calls s₀).mainCumulative ≤
        (call.run cx (runCalls cx calls s₀)).mainCumulative) := by
  have hfree : ReplayFree checkpoints (blocksOf cx raws) := .of_noZone _ hzone
  have hcalls' : ∀ c ∈ calls, ∀ raw, c.raw? = some raw → raw ∈ raws :=
    fun c hc => hcalls c (mem_append_left _ hc)
  obtain ⟨g,hg,hs⟩ := openOrGenesis_eq hopen
  have hundo := runCalls_canUndoSwitch hkeeps hzone hopen hU hT hcalls'
  rw [map_append, ← cons_append, pairwise_append] at hmono
  obtain ⟨chain,last,hlast,hgrove⟩ := runCalls_grove hU hT hfree
    (fun c hc raw hraw => .inl (hcalls' c hc raw hraw)) hmono.1 hundo
    (genesis_grove hg cfg checkpoints clock raws hs)
  obtain ⟨chain',hrec⟩ := runCalls_recorded hopen hU hT hzone hkeeps.pruneDepth hcalls'
  have hle : last ≤ call.now := hmono.2.2 last hlast call.now (by simp)
  refine Call.run_heaviest hU hT hfree hkeeps
    (fun raw hraw => .inl (hcalls call (by simp) raw hraw)) (hgrove.atClock hle) hrec.inv
    (hgrove.kept.sound.holds.toHoldsTables.length_eq hrec.sound.holds.toHoldsTables)
    hrising.of_append.last ?_ hheavy
  rw [← runCalls_concat]
  exact hrising.last

theorem runCalls_heaviest (hcalls : ∀ c ∈ calls, ∀ raw, c.raw? = some raw → raw ∈ raws)
    (hmono : (clock :: calls.map Call.now).Pairwise (· ≤ ·))
    (hrising : AllAlong cx ChainState.Rising calls s₀) : (runCalls cx calls s₀).Heaviest := by
  induction calls using reverseRecOn with
  | nil =>
    obtain ⟨g,hg,hs⟩ := openOrGenesis_eq hopen
    intro x alt hx
    rw [hs] at hx
    simp [runCalls, ChainState.afterPush, ChainState.openEmpty] at hx
  | append_singleton calls call ih =>
    rw [runCalls_concat]
    refine (runCalls_heaviest_step hkeeps hzone hopen hU hT hcalls hmono hrising ?_).1
    refine ih (fun c hc => hcalls c (mem_append_left _ hc)) ?_ hrising.of_append
    rw [map_append, ← cons_append, pairwise_append] at hmono
    exact hmono.1

end

/-- After every call of `add_block` no branch is heavier than the main chain, which
has not become lighter. -/
theorem addBlock_heaviest {cx : Crypto} {cfg : Config} {checkpoints : Checkpoints}
    {clock now : Nat} {s₀ : ChainState} {calls : List Call} {raw : RawBlock}
    (hkeeps : cfg.KeepsBodies) (hzone : ∀ i, checkpoints.isInCheckpointZone i = false)
    (hopen : ChainState.openOrGenesis cx cfg checkpoints clock = .ok ⟨⟩ s₀)
    (hU : UniqueIds cx (blocksOf cx (raw :: calls.filterMap Call.raw?)))
    (hT : UniqueTxIds cx (blocksOf cx (raw :: calls.filterMap Call.raw?)))
    (hclock : (clock :: (calls.map Call.now ++ [now])).Pairwise (· ≤ ·))
    (hrising : AllAlong cx ChainState.Rising (calls ++ [.addBlock now raw]) s₀) :
    (runCalls cx (calls ++ [.addBlock now raw]) s₀).Heaviest ∧
      (runCalls cx calls s₀).mainCumulative ≤
        (runCalls cx (calls ++ [.addBlock now raw]) s₀).mainCumulative := by
  have hcalls : ∀ c ∈ calls ++ [Call.addBlock now raw], ∀ r, c.raw? = some r →
      r ∈ raw :: calls.filterMap Call.raw? := by
    intro c hc r hr
    rcases List.mem_append.1 hc with hc | hc
    · exact List.mem_cons_of_mem _ (List.mem_filterMap.2 ⟨c,hc,hr⟩)
    · rw [List.mem_singleton.1 hc] at hr
      cases hr
      exact List.mem_cons_self
  have hmono : (clock :: (calls ++ [Call.addBlock now raw]).map Call.now).Pairwise (· ≤ ·) := by
    rw [List.map_append]
    exact hclock
  have hbefore : (runCalls cx calls s₀).Heaviest := by
    refine runCalls_heaviest hkeeps hzone hopen hU hT
      (fun c hc => hcalls c (List.mem_append_left _ hc)) ?_ hrising.of_append
    rw [← List.cons_append, List.pairwise_append] at hclock
    exact hclock.1
  have hstep := runCalls_heaviest_step hkeeps hzone hopen hU hT hcalls hmono hrising hbefore
  rw [runCalls_concat]
  exact ⟨hstep.1,hstep.2 rfl⟩

/-- Two main chain blocks and two of the branch that stands still. -/
def sampleBeforeTakeover : List Call :=
  (sampleMain.take 2 ++ sampleHeavyBranch.take 2).map fun offer => Call.addBlock offer.1 offer.2

/-- The third block of the branch takes the main chain over. -/
theorem addBlock_heaviest_sample :
    let s := runCalls sampleCrypto sampleBeforeTakeover (sampleNode {} .none 1000)
    let t := runCalls sampleCrypto (sampleBeforeTakeover ++ [.addBlock 1000 sampleHeavy])
      (sampleNode {} .none 1000)
    t.mainCumulative = 63 ∧ t.Heaviest ∧ s.mainCumulative ≤ t.mainCumulative := by
  intro s t
  refine ⟨by decide +kernel,?_⟩
  exact addBlock_heaviest ⟨rfl,rfl,rfl⟩ Checkpoints.none_isInCheckpointZone
    (sampleNode_open {} .none 1000) (by decide +kernel) (by decide +kernel) (by decide +kernel)
    (by decide +kernel)

/-- Two blocks that are two hours and more ahead of the clock of the other calls. -/
def sampleLate : List (BlockTemplate × List Transaction) := sampleChain [(9000,[],0),(9060,[],0)]

def sampleBeforeLate : List Call :=
  (sampleOffers 10000 sampleLate ++ sampleOffers 1000 (sampleBadBranch.take 2)).map fun offer =>
    Call.addBlock offer.1 offer.2

/-- The clock goes back, the switch fails, and the old tail is refused: the main
chain is cut back to genesis and the branch is heavier. -/
theorem addBlock_not_heaviest :
    let s := runCalls sampleCrypto sampleBeforeLate (sampleNode {} .none 1000)
    let t := runCalls sampleCrypto (sampleBeforeLate ++ [.addBlock 1000 sampleBad])
      (sampleNode {} .none 1000)
    UniqueIds sampleCrypto (blocksOf sampleCrypto
      (sampleBad :: sampleBeforeLate.filterMap Call.raw?)) ∧
    UniqueTxIds sampleCrypto (blocksOf sampleCrypto
      (sampleBad :: sampleBeforeLate.filterMap Call.raw?)) ∧
    AllAlong sampleCrypto ChainState.Rising (sampleBeforeLate ++ [.addBlock 1000 sampleBad])
      (sampleNode {} .none 1000) ∧
    t.mainCumulative < s.mainCumulative ∧
      ∃ x alt, t.altBlocks.lookup x = some alt ∧
        t.mainCumulative < alt.info.cumulativeDifficulty := by
  intro s t
  refine ⟨by decide +kernel,by decide +kernel,by decide +kernel,by decide +kernel,
    (sampleBad.id? sampleCrypto).getD (ByteVec.zero 32),?_⟩
  have hheld : (t.altBlocks.lookup ((sampleBad.id? sampleCrypto).getD (ByteVec.zero 32))).any
      (fun alt => t.mainCumulative < alt.info.cumulativeDifficulty) = true := by decide +kernel
  obtain ⟨alt,halt,hlt⟩ := (Option.any_eq_true _ _).1 hheld
  exact ⟨alt,halt,by simpa using hlt⟩

end Wrkz
