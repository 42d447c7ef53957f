import Wrkz.Chain.Heaviest

/-!
What a history leaves behind. Whatever a node was offered and however often it was
rewound, its main chain can be built again block by block, and its ledger is decided
by its tip.
-/

set_option autoImplicit false

namespace Wrkz

open Library ChainState List

/-- A node whose chain starts at `g` and was accepted block by block by the time `now`. -/
structure Vetted {cx : Crypto} (cfg : Config) (checkpoints : Checkpoints) (now : Nat)
    (g : MainBlock cx) (s : ChainState) (chain : MainChain cx) : Prop
    extends Ledgered cfg checkpoints s chain where
  clock : s.clock ≤ now
  head : chain.head? = some g
  certified : Certified cfg checkpoints now chain
  trimmed : Trimmed s chain.length

section

variable {cx : Crypto} {U : Set RawBlock} {cfg : Config} {checkpoints : Checkpoints}
  {now clock : Nat} {s t s₀ : ChainState} {chain c c' p q : MainChain cx} {b b' g : MainBlock cx}
  {raws rs : List RawBlock} {calls : List Call}

theorem Vetted.atClock (h : Vetted cfg checkpoints now g s chain) (hle : clock ≤ now) :
    Vetted cfg checkpoints now g (s.atClock clock) chain where
  toLedgered := h.toLedgered.congr rfl
    { h.configured with }
  clock := hle
  head := h.head
  certified := h.certified
  trimmed := h.trimmed.congr rfl rfl

theorem rewindable_vetted : Rewindable U (Vetted cfg checkpoints now g) :=
  fun hsound hp h hoff =>
    ⟨rewindable_ledgered hsound hp h.toLedgered hoff,by rw [hoff.env.clock]; exact h.clock,
      by rw [← head?_append_of_ne_nil _ hp]; exact h.head,h.certified.of_append,
      h.trimmed.takenOff hoff⟩

theorem stable_vetted (hT : UniqueTxIds cx U) (hfree : ReplayFree checkpoints U) :
    Stable U (Vetted cfg checkpoints now g) where
  push {s chain b d prev} hsound h hprev hknown hcheck hfresh := by
    have hnode : NodeAt cfg checkpoints s chain := ⟨hsound.holds,h.spends,h.configured⟩
    refine ⟨(stable_ledgered hT hfree).push hsound h.toLedgered hprev hknown hcheck hfresh,h.clock,
      ?_,h.certified.concat ⟨s,d,hnode,h.clock,?_⟩,?_⟩
    · rw [head?_append_of_ne_nil _ hsound.nonempty]
      exact h.head
    · rw [← hprev, Nat.add_sub_cancel]
      exact hcheck
    · rw [length_append, length_singleton]
      exact h.trimmed.grew (grew_afterPush s chain b) rfl
  takeOff hsound hp h hoff := rewindable_vetted hsound hp h hoff.toTakenOff
  branches alts unwound h :=
    ⟨(stable_ledgered hT hfree).branches alts unwound h.toLedgered,h.clock,h.head,h.certified,
      h.trimmed.congr rfl rfl⟩

theorem runCalls_vetted (hg : IsGenesis g)
    (hs : s₀ = (openEmpty cfg checkpoints clock).afterPush [] g)
    (hU : UniqueIds cx (blocksOf cx raws)) (hT : UniqueTxIds cx (blocksOf cx raws))
    (hzone : ∀ i, checkpoints.isInCheckpointZone i = false) (hcalls : calls.filterMap Call.raw? ⊆ raws)
    (hclock : ∀ time ∈ clock :: calls.map Call.now, time ≤ now) :
    ∃ chain, Kept (blocksOf cx raws) (Vetted cfg checkpoints now g) (runCalls cx calls s₀) chain := by
  induction calls using reverseRecOn with
  | nil =>
    have h := genesis_settled hg cfg checkpoints clock
    have hsound := genesis_sound hg (hg.mem_blocksOf raws) hs
    subst hs
    have hle := hclock clock mem_cons_self
    exact ⟨[g],hsound,h.toLedgered,hle,rfl,h.certified.mono hle,h.trimmed⟩
  | append_singleton calls call ih =>
    rw [filterMap_append, append_subset] at hcalls
    rw [map_append, ← cons_append] at hclock
    obtain ⟨chain,hkept⟩ := ih hcalls.1 fun time h => hclock time (mem_append_left _ h)
    rw [runCalls_concat]
    refine Call.run_kept hU (stable_vetted hT (.of_noZone _ hzone)) rewindable_vetted ?_
      (hkept.atClock call.now (hkept.inv.atClock (hclock _ (by simp))))
    exact fun raw hraw => .inl (hcalls.2 (mem_filterMap.2 ⟨call,by simp,hraw⟩))

theorem Kept.nodeAt (h : Kept U (Vetted cfg checkpoints now g) s chain) (time : Nat) :
    NodeAt cfg checkpoints (s.atClock time) chain :=
  ⟨(h.sound.atClock time).holds,⟨h.inv.spends.keyImages,h.inv.spends.transactions⟩,
    { h.inv.configured with }⟩

theorem Kept.valid (hg : IsGenesis g) (h : Kept U (Vetted cfg checkpoints now g) s chain) :
    Valid cfg checkpoints now g U chain :=
  ⟨hg,h.inv.head,h.sound.linked,h.inv.certified,h.inv.wellSpent⟩

section

variable (hB : UniqueBlocks cx U) (h : Valid cfg checkpoints now g U (c ++ [b]))
  (h' : Valid cfg checkpoints now g U (c' ++ [b'])) (htip : b'.info.blockHash = b.info.blockHash)
include hB h h' htip

theorem Valid.sameBody : SameBody b b' ∧ c'.length = c.length := by
  have hraw : b'.raw = b.raw := hB _ (h.linked.known b (by simp)) _ (h'.linked.known b' (by simp))
    _ b.id?_eq (by rw [← htip]; exact b'.id?_eq)
  have hblock : b'.block = b.block := by
    have hparsed := b'.parsed
    rw [hraw, b.parsed] at hparsed
    exact (Except.ok.inj hparsed).symm
  -- the height in the coinbase tells how many blocks there are below
  have hheight := h.linked.height c.length b (by simp)
  rw [← hblock, h'.linked.height c'.length b' (by simp)] at hheight
  exact ⟨⟨hblock,hraw,htip⟩,Option.some.inj hheight⟩

/-- The id of a block decides the chain below it. -/
theorem Valid.eq_of_tip : c' ++ [b'] = c ++ [b] := by
  obtain ⟨hbody,hlen⟩ := h.sameBody hB h' htip
  induction c using reverseRecOn generalizing c' b b' with
  | nil =>
    cases length_eq_zero_iff.1 hlen
    have hb := h.head
    rw [← h'.head] at hb
    cases hb
    rfl
  | append_singleton c d ih =>
    obtain rfl | ⟨c',d',rfl⟩ := eq_nil_or_concat' c'
    · simp at hlen
    have hparent := (h.linked.tailOn (c := d) (by simp)).2.1
    have hparent' := (h'.linked.tailOn (c := d') (by simp)).2.1
    rw [hbody.1, hparent] at hparent'
    have hc := h.of_append (by simp)
    have hc' := h'.of_append (by simp)
    have hbelow := hc.sameBody hB hc' hparent'.symm
    have heq := ih hc hc' hparent'.symm hbelow.1 hbelow.2
    rw [heq] at h' ⊢
    have hb := (h.certified _ b [] rfl (by simp)).eq_of_sameBody
      (h'.certified _ b' [] rfl (by simp)) hbody
    rw [hb]

end

/-- A node without branches, once it has been rewound. -/
theorem Kept.fed (h : Kept U (Vetted cfg checkpoints now g) s chain) (hclock : s.clock = now)
    (hnone : s.altBlocks = ∅) : ∃ rs, Fed cfg checkpoints now g U s rs chain := by
  obtain ⟨tail,rfl⟩ := head?_eq_some_iff.1 h.inv.head
  exact ⟨_,⟨⟨h.sound,h.inv.toLedgered,hclock,h.inv.certified,h.inv.trimmed⟩,by
    rw [hnone]
    exact .empty⟩,hnone,tail,rfl,rfl⟩

theorem HoldsTables.eq_bodies (h : HoldsTables s (p ++ q))
    (hrs : rs.map some = (range q.length).map fun i => s.rawBlock (p.length + i)) :
    rs = q.map MainBlock.raw := by
  have hlen : rs.length = q.length := by simpa using congrArg length hrs
  refine ext_getElem? fun i => ?_
  by_cases hi : i < q.length
  · have hbody := congrArg (fun l => l[i]?) hrs
    simp only [getElem?_map, getElem?_range hi, Option.map_some] at hbody
    obtain ⟨r,hr,hstored⟩ := Option.map_eq_some_iff.1 hbody
    unfold rawBlock at hstored
    split at hstored
    · cases hstored
    · obtain ⟨b,hb,rfl⟩ := h.rawBlocks _ _ hstored.symm
      rw [getElem?_append_right (by omega), Nat.add_sub_cancel_left] at hb
      rw [hr, getElem?_map, hb]
      rfl
  · rw [getElem?_eq_none (by omega), getElem?_eq_none (by simp; omega)]

theorem NodeAt.sameRecords (h : NodeAt cfg checkpoints s c) (h' : NodeAt cfg checkpoints t c) :
    SameRecords s t :=
  (h.holds.toHoldsTables.sameRecords_iff h'.holds.toHoldsTables).2
    ⟨h.keyImage_eq h',h.transactionIndex_eq h'⟩

/-- What a node stores above `p`, offered to a node that stands at `p`. -/
theorem Fed.catches_up (hB : UniqueBlocks cx U) (hT : UniqueTxIds cx U)
    (hzone : ∀ i, checkpoints.isInCheckpointZone i = false) (hg : IsGenesis g) {before : List RawBlock}
    (h : Kept U (Vetted cfg checkpoints now g) s (p ++ q))
    (hfed : Fed cfg checkpoints now g U t before p)
    (hrs : rs.map some = (range q.length).map fun i => s.rawBlock (p.length + i)) :
    FullyValid cx now t rs ∧ SameRecords s (deliver cx now rs t) := by
  cases h.sound.holds.toHoldsTables.eq_bodies hrs
  obtain ⟨hfully,hthere⟩ := hfed.feed hB hT (.of_noZone _ hzone) q (h.valid hg)
  have hsame := (h.nodeAt now).sameRecords
    (hthere.grove.kept.inv.nodeAt hthere.grove.kept.sound)
  exact ⟨hfully,hsame⟩

end

section

variable {cx : Crypto} {cfg : Config} {checkpoints : Checkpoints} {clock now n : Nat}
  {s₀ : ChainState} {raws rs : List RawBlock} {calls calls' : List Call}
  (hzone : ∀ i, checkpoints.isInCheckpointZone i = false)
  (hopen : openOrGenesis cx cfg checkpoints clock = .ok ⟨⟩ s₀)
  (hB : UniqueBlocks cx (blocksOf cx raws)) (hT : UniqueTxIds cx (blocksOf cx raws))
  (hcalls : calls.filterMap Call.raw? ⊆ raws)
include hzone hopen hB hT hcalls

/-- Whatever led two nodes to the same tip, they have the same ledger and accept the
same next blocks with the same records. -/
theorem same_tip_same_ledger (hcalls' : calls'.filterMap Call.raw? ⊆ raws)
    (htip : (runCalls cx calls' s₀).tipInfo.map BlockInfo.blockHash =
      (runCalls cx calls s₀).tipInfo.map BlockInfo.blockHash) :
    SameRecords (runCalls cx calls s₀) (runCalls cx calls' s₀) ∧
      ∀ now block txBlobs hash prev a,
        ((runCalls cx calls s₀).atClock now).checkMain cx block txBlobs hash prev = .ok a ↔
          ((runCalls cx calls' s₀).atClock now).checkMain cx block txBlobs hash prev = .ok a := by
  obtain ⟨g,hg,hs⟩ := openOrGenesis_eq hopen
  -- a time by which both runs are over
  let last := (clock :: (calls ++ calls').map Call.now).sum
  have hlast : ∀ time ∈ clock :: (calls ++ calls').map Call.now, time ≤ last :=
    single_le_sum (by simp)
  obtain ⟨c,hc⟩ := runCalls_vetted hg hs hB.uniqueIds hT hzone hcalls
    fun time h => hlast time (cons_subset_cons _ (map_subset _ (subset_append_left _ _)) h)
  obtain ⟨c',hc'⟩ := runCalls_vetted hg hs hB.uniqueIds hT hzone hcalls'
    fun time h => hlast time (cons_subset_cons _ (map_subset _ (subset_append_right _ _)) h)
  obtain ⟨p,b,rfl⟩ := (eq_nil_or_concat' c).resolve_left hc.sound.nonempty
  obtain ⟨p',b',rfl⟩ := (eq_nil_or_concat' c').resolve_left hc'.sound.nonempty
  rw [hc.sound.holds.tipInfo_eq, hc'.sound.holds.tipInfo_eq] at htip
  have heq := (hc.valid hg).eq_of_tip hB (hc'.valid hg) (by simpa using htip)
  rw [heq] at hc'
  have hsame := (hc.nodeAt 0).sameRecords (hc'.nodeAt 0)
  exact ⟨hsame,fun now _ _ _ _ _ =>
    ⟨(hc.nodeAt now).checkMain_ok (hc'.nodeAt now) (Nat.le_refl now),
      (hc'.nodeAt now).checkMain_ok (hc.nodeAt now) (Nat.le_refl now)⟩⟩

variable (hclock : ∀ time ∈ clock :: calls.map Call.now, time ≤ now)
  (htip : (runCalls cx calls s₀).tip = some n)
include hclock htip

/-- A fresh node that is offered the main chain of another, as the other stores it,
takes every block and comes to the same ledger. -/
theorem main_chain_downloads
    (hrs : rs.map some = (range n).map fun i => (runCalls cx calls s₀).rawBlock (1 + i)) :
    FullyValid cx now (s₀.atClock now) rs ∧
      SameRecords (runCalls cx calls s₀) (deliver cx now rs (s₀.atClock now)) := by
  obtain ⟨g,hg,hs⟩ := openOrGenesis_eq hopen
  obtain ⟨c,hc⟩ := runCalls_vetted hg hs hB.uniqueIds hT hzone hcalls hclock
  obtain ⟨tail,rfl⟩ := head?_eq_some_iff.1 hc.inv.head
  rw [hc.sound.holds.tip, MainChain.tip_eq_some_iff, length_cons, Nat.add_right_cancel_iff] at htip
  subst htip
  have hs₁ : s₀.atClock now = (openEmpty cfg checkpoints now).afterPush [] g := by
    rw [hs]
    rfl
  exact Fed.catches_up (p := [g]) hB hT hzone hg hc (.of_genesis hg hs₁ raws) hrs

/-- Blocks that `rewind_to` takes off come back with their records when they are offered
again; a rewind that is refused changes nothing. -/
theorem rewound_blocks_return {top : Nat} (htop : top < n)
    (hrs : rs.map some = (range (n-top)).map fun i => (runCalls cx calls s₀).rawBlock (top+1+i)) :
    (∀ removed t, rewindTo cx top ((runCalls cx calls s₀).atClock now) = .ok removed t →
      FullyValid cx now t rs ∧ SameRecords (runCalls cx calls s₀) (deliver cx now rs t)) ∧
    ∀ e t, rewindTo cx top ((runCalls cx calls s₀).atClock now) = .error e t →
      t = (runCalls cx calls s₀).atClock now := by
  obtain ⟨g,hg,hs⟩ := openOrGenesis_eq hopen
  obtain ⟨c,hc⟩ := runCalls_vetted hg hs hB.uniqueIds hT hzone hcalls hclock
  rw [hc.sound.holds.tip, MainChain.tip_eq_some_iff] at htip
  obtain ⟨p,q,rfl,hp⟩ : ∃ p q, c = p ++ q ∧ p.length = top + 1 :=
    ⟨_,_,(take_append_drop (top+1) c).symm,by simp; omega⟩
  have hq : q.length = n - top := by simp at htip; omega
  have hnow := hc.atClock now (hc.inv.atClock (Nat.le_refl now))
  have hne : p ≠ [] := ne_nil_of_length_pos (by omega)
  rcases hnow.sound.holds.rewindTo_cases hp (ne_nil_of_length_pos (by omega)) with
    ⟨t,hrun,hoff,halts,_⟩ | ⟨e,hrun⟩
  · have hkept : Kept (blocksOf cx raws) (Vetted cfg checkpoints now g) t p :=
      ⟨⟨hoff.holds,hne,hnow.sound.linked.of_append,by intro x a hx; simp [halts] at hx⟩,
        rewindable_vetted hnow.sound hne hnow.inv hoff.toTakenOff⟩
    obtain ⟨before,hfed⟩ := hkept.fed hoff.env.clock halts
    have hback := hfed.catches_up hB hT hzone hg hc (by rw [hp, hq]; exact hrs)
    rw [hrun]
    exact ⟨fun _ _ h => (by cases h; exact hback),fun _ _ h => (by cases h)⟩
  · rw [hrun]
    exact ⟨fun _ _ h => (by cases h),fun _ _ h => (by cases h; rfl)⟩

end

/-- A switch on one side, the branch alone on the other. -/
theorem same_tip_same_ledger_sample : let s₀ := sampleNode {} .none 1000
    SameRecords (deliver sampleCrypto 1000 sampleFork s₀)
      (deliver sampleCrypto 1000 sampleForkTurned s₀) :=
  (same_tip_same_ledger Checkpoints.none_isInCheckpointZone (sampleNode_open {} .none 1000)
    (by decide +kernel : UniqueBlocks sampleCrypto (blocksOf sampleCrypto sampleFork))
    (by decide +kernel) (by decide +kernel) (by decide +kernel) (by decide +kernel)).1

theorem main_chain_downloads_sample : let s₀ := sampleNode {} .none 1000
    let rs := (sampleHeavyBranch.take 2).map Prod.snd
    FullyValid sampleCrypto 2000 (s₀.atClock 2000) rs ∧
      SameRecords (deliver sampleCrypto 1000 sampleFork s₀)
        (deliver sampleCrypto 2000 rs (s₀.atClock 2000)) :=
  main_chain_downloads (n := 2) Checkpoints.none_isInCheckpointZone (sampleNode_open {} .none 1000)
    (by decide +kernel : UniqueBlocks sampleCrypto (blocksOf sampleCrypto sampleFork))
    (by decide +kernel) (by decide +kernel) (by decide +kernel) (by decide +kernel)
    (by decide +kernel)

theorem rewound_blocks_return_sample :
    let s := deliver sampleCrypto 1000 sampleFork (sampleNode {} .none 1000)
    let rs := (sampleHeavyBranch.take 2).map Prod.snd
    (finalState (rewindTo sampleCrypto 0 (s.atClock 2000))).tip = some 0 ∧
      ∀ removed t, rewindTo sampleCrypto 0 (s.atClock 2000) = .ok removed t →
        FullyValid sampleCrypto 2000 t rs ∧ SameRecords s (deliver sampleCrypto 2000 rs t) :=
  ⟨by decide +kernel,(rewound_blocks_return (n := 2) Checkpoints.none_isInCheckpointZone
    (sampleNode_open {} .none 1000)
    (by decide +kernel : UniqueBlocks sampleCrypto (blocksOf sampleCrypto sampleFork))
    (by decide +kernel) (by decide +kernel) (by decide +kernel) (by decide +kernel) (by decide)
    (by decide +kernel)).1⟩

end Wrkz
