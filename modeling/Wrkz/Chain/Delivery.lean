import Wrkz.Chain.Selection
import Wrkz.Chain.Valid
import Wrkz.Library.Along

/-!
Blocks delivered in any order in which parents come first. The node holds every
valid chain among the blocks it has been given, on its main chain or as a branch,
and the main chain is one of them; so it ends on one of the heaviest, whatever the
order.
-/

set_option autoImplicit false

namespace Wrkz

open Library MainChain ChainState List

def deliver (cx : Crypto) (clock : Nat) (raws : List RawBlock) (s : ChainState) : ChainState :=
  runCalls cx (raws.map (Call.addBlock clock)) s

def RawBlock.parent? (raw : RawBlock) : Option Hash :=
  (BlockTemplate.fromBytes raw.block).toOption.map BlockTemplate.previousBlockHash

/-- Every block stands on genesis or on a block that comes before it. -/
def ParentsFirst (cx : Crypto) (raws : List RawBlock) : Prop :=
  Along (fun before r => ∀ h ∈ r.parent?,
    (genesisBlockHash cx).toOption = some h ∨ ∃ r' ∈ before, r'.id? cx = some h) raws

/-- Few enough leaves, blocks, and blocks between a leaf and the tip. -/
structure AltBlocks.Fits (alts : AltBlocks) (tip : Nat) : Prop where
  leaves : alts.leaves.length ≤ cryptonoteMaxAltChainCount
  blocks : AltBlocks.length alts ≤ cryptonoteMaxAltBlockCount
  depth : ∀ leaf ∈ alts.leaves, alts.isStale tip leaf = false

instance (alts : AltBlocks) (tip : Nat) : Decidable (alts.Fits tip) :=
  decidable_of_iff (alts.leaves.length ≤ cryptonoteMaxAltChainCount ∧
    AltBlocks.length alts ≤ cryptonoteMaxAltBlockCount ∧
    ∀ leaf ∈ alts.leaves, alts.isStale tip leaf = false)
    ⟨fun h => ⟨h.1,h.2.1,h.2.2⟩,fun h => ⟨h.leaves,h.blocks,h.depth⟩⟩

def FitsAlong (cx : Crypto) (clock : Nat) (raws : List RawBlock) (s₀ : ChainState) : Prop :=
  Along (fun before r => Ensures (addBlockUnpruned cx r)
    ((deliver cx clock before s₀).atClock clock).cleared
    (fun _ u => ∀ tip ∈ u.tip, u.altBlocks.Fits tip) (fun _ _ => True)) raws

/-- The parent of a block of `D` is the genesis block or another one of them. -/
def ParentsIn (cx : Crypto) (D : List RawBlock) : Prop :=
  ∀ r ∈ D, ∀ h ∈ r.parent?, (genesisBlockHash cx).toOption = some h ∨ ∃ r' ∈ D, r'.id? cx = some h

def HoldsValid {cx : Crypto} (cfg : Config) (checkpoints : Checkpoints) (now : Nat)
    (g : MainBlock cx) (U : Set RawBlock) (s : ChainState) (chain : MainChain cx) : Prop :=
  ∀ c : MainChain cx, Valid cfg checkpoints now g U c → ∀ b, c.getLast? = some b →
    Lineage s.altBlocks chain b.info.blockHash (infos c)

section

variable {cx : Crypto} {U U' : Set RawBlock} {cfg : Config} {checkpoints : Checkpoints}
  {now clock : Nat} {s t s₀ : ChainState} {chain p q bs c c₁ : MainChain cx} {b b' g : MainBlock cx}
  {x y hash : Hash} {a alt : AltBlock} {alts : AltBlocks} {infos infos' : List BlockInfo}
  {raw r : RawBlock} {D : List RawBlock}

theorem AltBlocks.prune_of_fits {tip : Nat} (h : alts.Fits tip) (exclude : Option Hash) :
    alts.prune tip exclude = alts := by
  have hstale : alts.staleSegments tip exclude = [] := by
    unfold AltBlocks.staleSegments
    have hnone : (alts.leaves.filter (fun h => some h ≠ exclude)).filter (alts.isStale tip) =
        [] := by
      refine filter_eq_nil_iff.2 fun leaf hleaf => ?_
      rw [h.depth leaf (mem_filter.1 hleaf).1]
      simp
    rw [hnone]
    rfl
  have hwhile : ∀ (tooMany : AltBlocks → Bool) (fuel : Nat), tooMany alts = false →
      AltBlocks.pruneWhile tooMany exclude fuel alts = alts := by
    intro tooMany fuel hfew
    cases fuel with
    | zero => rfl
    | succ fuel =>
      unfold AltBlocks.pruneWhile
      rw [hfew]
      rfl
  have hleaves : AltBlocks.tooManyLeaves alts = false := by
    simpa [AltBlocks.tooManyLeaves] using h.leaves
  have hblocks : AltBlocks.tooManyBlocks alts = false := by
    simpa [AltBlocks.tooManyBlocks] using h.blocks
  unfold AltBlocks.prune
  rw [hstale]
  simp only [foldl_nil]
  rw [hwhile _ _ hleaves, hwhile _ _ hblocks]

theorem pruned_of_fits (h : ∀ tip ∈ s.tip, s.altBlocks.Fits tip) (exclude : Option Hash) :
    s.pruned exclude = s := by
  unfold pruned
  cases htip : s.tip with
  | none => rfl
  | some tip =>
    simp only
    rw [AltBlocks.prune_of_fits (h tip htip), ← htip]

theorem templatesOf_mono (hsub : U ⊆ U') : templatesOf U ⊆ templatesOf U' :=
  fun _ ⟨r,hr,ht⟩ => ⟨r,hsub hr,ht⟩

theorem UniqueTxIds.mono (h : UniqueTxIds cx U') (hsub : U ⊆ U') : UniqueTxIds cx U := by
  have hmono : transactionsOf U ⊆ transactionsOf U' := fun _ ⟨r,hr,htx⟩ => ⟨r,hsub hr,htx⟩
  exact fun t ht u hu => h t (hmono ht) u (hmono hu)

theorem Linked.mono (hsub : U ⊆ U') (h : Linked U chain) : Linked U' chain :=
  ⟨fun b hb => hsub (h.known b hb),h.height,h.parent⟩

theorem Sound.mono (hsub : U ⊆ U') (h : Sound U s chain) : Sound U' s chain where
  holds := h.holds
  nonempty := h.nonempty
  linked := h.linked.mono hsub
  alts x a ha := by
    obtain ⟨t,p,hsnd⟩ := h.alts x a ha
    exact ⟨t,p,hsub hsnd.known,hsnd.parsed,hsnd.hashed,hsnd.prevHash,hsnd.height,hsnd.infoHash,
      templatesOf_mono hsub hsnd.parentKnown,hsnd.parentHashed,hsnd.parentHeight⟩

theorem Grove.widen (hsub : U ⊆ U') (h : Grove cfg checkpoints now U s chain) :
    Grove cfg checkpoints now U' s chain :=
  ⟨⟨h.kept.sound.mono hsub,h.kept.inv⟩,h.rooted⟩

theorem blocksOf_mono {raws raws' : List RawBlock} (h : raws ⊆ raws') :
    blocksOf cx raws ⊆ blocksOf cx raws' :=
  fun _ hr => hr.imp_left fun hmem => h hmem

theorem mem_blocksOf_concat : raw ∈ blocksOf cx (D ++ [r]) ↔ raw ∈ blocksOf cx D ∨ raw = r := by
  constructor
  · rintro (hmem | hgen)
    · rcases mem_append.1 hmem with hmem | hmem
      · exact .inl (.inl hmem)
      · exact .inr (mem_singleton.1 hmem)
    · exact .inl (.inr hgen)
  · rintro (hmem | rfl)
    · exact blocksOf_mono (subset_append_left D [r]) hmem
    · exact .inl (by simp)

theorem Linked.index_inj (h : Linked U chain) {i j : Nat} (hi : chain[i]? = some b)
    (hj : chain[j]? = some b') (hraw : b'.raw = b.raw) : i = j := by
  have hblock : b'.block = b.block := by
    have hparsed := b'.parsed
    rw [hraw, b.parsed] at hparsed
    exact (Except.ok.inj hparsed).symm
  have hheight := h.height j b' hj
  rw [hblock, h.height i b hi] at hheight
  exact Option.some.inj hheight

theorem Valid.not_genesis (h : Valid cfg checkpoints now g U chain) {i : Nat}
    (hb : chain[i+1]? = some b) (hgen : ∃ g, genesisBlock = .ok g ∧ g.toBytes cx = .ok b.raw.block ∧
      b.raw.transactions = []) : False := by
  obtain ⟨g₀,hg₀,hblob,htxs⟩ := hgen
  cases chain with
  | nil => simp at hb
  | cons d chain =>
    have hg := h.isGenesis
    have hd : d = g := Option.some.inj h.head
    subst hd
    have htemplate := hg.template
    rw [hg₀] at htemplate
    cases htemplate
    rw [hg.blob] at hblob
    have hraw : b.raw = d.raw := by
      cases hr : b.raw with
      | mk block transactions =>
        cases hr' : d.raw with
        | mk block' transactions' =>
          rw [hr] at htxs hblob
          rw [hr'] at hblob
          have hnil := hg.rawTransactions
          rw [hr'] at hnil
          simp only [Except.ok.injEq] at hblob htxs hnil
          rw [htxs, hnil, hblob]
    have := h.linked.index_inj (i := 0) (j := i+1) rfl hb hraw
    omega

theorem Valid.ends_with (hB : UniqueBlocks cx (blocksOf cx (D ++ [r])))
    (hfirst : ParentsIn cx D) (h : Valid cfg checkpoints now g (blocksOf cx (D ++ [r])) c)
    (hnot : ¬ Valid cfg checkpoints now g (blocksOf cx D) c) :
    r ∉ blocksOf cx D ∧ ∃ c₁ b, c = c₁ ++ [b] ∧ b.raw = r ∧
      Valid cfg checkpoints now g (blocksOf cx D) c₁ := by
  have hexists : ∃ b ∈ c, b.raw ∉ blocksOf cx D := by
    by_contra hall
    refine hnot ⟨h.isGenesis,h.head,⟨fun b hb => ?_,h.linked.height,h.linked.parent⟩,h.certified,
      h.wellSpent⟩
    by_contra hb'
    exact hall ⟨b,hb,hb'⟩
  obtain ⟨b,hb,hout⟩ := hexists
  have hraw : b.raw = r := (mem_blocksOf_concat.1 (h.linked.known b hb)).resolve_left hout
  have hr : r ∉ blocksOf cx D := hraw ▸ hout
  obtain ⟨c₁,c₂,rfl⟩ := append_of_mem hb
  have hget : (c₁ ++ b :: c₂)[c₁.length]? = some b := by simp
  refine ⟨hr,c₁,b,?_,hraw,?_⟩
  · -- nothing delivered before stands on the new block
    cases c₂ with
    | nil => rfl
    | cons b' c₂ =>
      exfalso
      have hget' : (c₁ ++ b :: b' :: c₂)[c₁.length+1]? = some b' := by
        rw [getElem?_append_right (by omega), Nat.add_sub_cancel_left]
        rfl
      have hprev := h.linked.parent _ b b' hget hget'
      rcases mem_blocksOf_concat.1 (h.linked.known b' (by simp)) with hknown | hnew
      · rcases hknown with hD | hgen
        · have hparent : b'.block.previousBlockHash ∈ b'.raw.parent? := by
            simp [RawBlock.parent?, b'.parsed, Except.toOption]
          rcases hfirst b'.raw hD _ hparent with hgenesis | ⟨r'',hr'',hid⟩
          · have hisg := h.isGenesis
            have hmem := mem_of_mem_head? (Option.mem_def.2 h.head)
            have hghash : genesisBlockHash cx = .ok g.info.blockHash := by
              unfold genesisBlockHash
              rw [hisg.template]
              exact g.hashed
            rw [hghash, hprev] at hgenesis
            have heq : b.raw = g.raw := hB _ (h.linked.known g hmem) _ (h.linked.known b hb) _
              g.id?_eq (by rw [b.id?_eq]; exact hgenesis.symm)
            rw [← hraw, heq] at hr
            exact hr (hisg.mem_blocksOf D)
          · rw [hprev] at hid
            have heq : r'' = b.raw := hB _ (h.linked.known b hb) _
              (mem_blocksOf_concat.2 (.inl (.inl hr''))) _ b.id?_eq hid
            rw [heq, hraw] at hr''
            exact hr (.inl hr'')
        · exact h.not_genesis hget' hgen
      · have := h.linked.index_inj hget hget' (hnew.trans hraw.symm)
        omega
  · have hne : c₁ ≠ [] := by
      intro hnil
      subst hnil
      have hbg : b = g := Option.some.inj h.head
      rw [hbg] at hout
      exact hout (h.isGenesis.mem_blocksOf D)
    have hc₁ := h.of_append hne
    refine ⟨hc₁.isGenesis,hc₁.head,⟨fun d hd => ?_,hc₁.linked.height,hc₁.linked.parent⟩,hc₁.certified,
      hc₁.wellSpent⟩
    refine (mem_blocksOf_concat.1 (hc₁.linked.known d hd)).resolve_right fun hnew => ?_
    obtain ⟨i,hi⟩ := List.getElem?_of_mem hd
    have hlt := (List.getElem?_eq_some_iff.1 hi).1
    have hi' : (c₁ ++ b :: c₂)[i]? = some d := by rwa [List.getElem?_append_left hlt]
    have := h.linked.index_inj hget hi' (hnew.trans hraw.symm)
    omega

/-- A valid chain that ends with the new block, whose parent is held. -/
structure Arrives (cfg : Config) (checkpoints : Checkpoints) (now : Nat) (g : MainBlock cx)
    (U : Set RawBlock) (s : ChainState) (chain : MainChain cx) (r : RawBlock) (c₁ : MainChain cx)
    (b : MainBlock cx) : Prop where
  raw : b.raw = r
  parent : Lineage s.altBlocks chain b.block.previousBlockHash (MainChain.infos c₁)
  valid : Valid cfg checkpoints now g U (c₁ ++ [b])
  nonempty : c₁ ≠ []

namespace Arrives

variable (h : Arrives cfg checkpoints now g U s chain r c₁ b)
include h

theorem accepted : AcceptedOn cfg checkpoints now c₁ b :=
  h.valid.certified c₁ b [] rfl h.nonempty

theorem passed : PassedOn cx cfg checkpoints now (MainChain.infos c₁) r b.info.blockHash b.info :=
  h.raw ▸ h.accepted.passedOn

theorem infos_ne : MainChain.infos c₁ ≠ [] := by
  simpa [MainChain.infos] using h.nonempty

theorem presented {block : BlockTemplate} (hparsed : BlockTemplate.fromBytes r.block = .ok block)
    (hhash : block.hash cx = .ok hash) : block = b.block ∧ hash = b.info.blockHash := by
  have hblock := b.parsed
  rw [h.raw, hparsed] at hblock
  cases hblock
  have hid := b.hashed
  rw [hhash] at hid
  exact ⟨rfl,Except.ok.inj hid⟩

end Arrives

theorem HoldsValid.arrives (hB : UniqueBlocks cx (blocksOf cx (D ++ [r])))
    (hfirst : ParentsIn cx D)
    (hheld : HoldsValid cfg checkpoints now g (blocksOf cx D) s chain)
    (h : Valid cfg checkpoints now g (blocksOf cx (D ++ [r])) c) :
    Valid cfg checkpoints now g (blocksOf cx D) c ∨ r ∉ blocksOf cx D ∧ ∃ c₁ b, c = c₁ ++ [b] ∧
      Arrives cfg checkpoints now g (blocksOf cx (D ++ [r])) s chain r c₁ b := by
  by_cases hold : Valid cfg checkpoints now g (blocksOf cx D) c
  · exact .inl hold
  · obtain ⟨hr,c₁,b,rfl,hraw,hc₁⟩ := h.ends_with hB hfirst hold
    refine .inr ⟨hr,c₁,b,rfl,hraw,?_,h,hc₁.nonempty⟩
    obtain ⟨c₀,d,hc₀⟩ := eq_nil_or_concat' c₁ |>.resolve_left hc₁.nonempty
    have hlast : c₁.getLast? = some d := by rw [hc₀]; simp
    have hprev : b.block.previousBlockHash = d.info.blockHash :=
      (Linked.tailOn h.linked hlast).2.1
    rw [hprev]
    exact hheld c₁ hc₁ d hlast

theorem Switched.carries {branch : List Hash}
    (h : Grove cfg checkpoints now U (s.withAlt hash alt) (p ++ q))
    (hswitched : Switched cx U (Settled cfg checkpoints now)
      (s.withAlt hash alt) hash t p q bs branch)
    (hlineage : Lineage (s.withAlt hash alt).altBlocks (p ++ q) x infos) :
    Lineage t.altBlocks (p ++ bs) x infos := by
  obtain ⟨y,hy,_,hfollows,_,_⟩ := branchHashes_ok hswitched.branchEq
  obtain ⟨d,hd,hdy⟩ := h.kept.sound.fork_last hswitched.nonempty hy
  subst hdy
  rw [hswitched.altBlocks]
  exact hlineage.switch h.kept.sound.holds.toHoldsTables h.kept.sound.linked hd h.rooted
    hswitched.built hfollows hswitched.kept.inv.certified

variable {e : ChainError} {parentAlt : Option Hash} {block : BlockTemplate} {prev d fork : Nat}
  {info : BlockInfo}

theorem Arrives.lineage_withAlt (hU : UniqueIds cx U) (h : Grove cfg checkpoints now U s chain)
    (harrives : Arrives cfg checkpoints now g U s chain r c₁ b) {infos : List BlockInfo}
    (hpass : PassedAlternative cx s r block hash prev parentAlt fork infos info d) :
    Lineage (s.withAlt hash (newAlt block r prev info)).altBlocks chain b.info.blockHash
      (MainChain.infos (c₁ ++ [b])) := by
  obtain ⟨hblock,hhash⟩ := harrives.presented hpass.presented.parsed hpass.presented.hashed
  subst hblock hhash
  obtain ⟨lineage,hlineage,hpassed⟩ := hpass.lineage hU h.kept.sound h.kept.inv.configured
    (Nat.le_of_eq h.kept.inv.clock)
  have heq := Lineage.unique h.kept.sound.holds.toHoldsTables h.rooted.apart harrives.parent hlineage
  subst heq
  have hinfo : b.info = info := hpassed.unique harrives.infos_ne harrives.passed
  have hnone := (hasBlock_false hpass.presented.fresh).1
  have hlookup : (s.withAlt b.info.blockHash (newAlt b.block r prev info)).altBlocks.lookup
      b.info.blockHash = some (newAlt b.block r prev info) := by
    simp [withAlt]
  have hnew := Lineage.alt hlookup (hlineage.insert hnone)
  rw [MainChain.infos_append]
  simpa [MainChain.infos, newAlt, hinfo] using hnew

/-- The parent of the new block is the tip, so the chain below it is the main chain. -/
theorem Arrives.chain_eq (hB : UniqueBlocks cx U) (h : Grove cfg checkpoints now U s chain)
    (harrives : Arrives cfg checkpoints now g U s chain r c₁ b) {prev : Nat}
    (hprev : prev + 1 = chain.length)
    (hparent : s.blockIndexByHash b.block.previousBlockHash = some prev) : c₁ = chain := by
  obtain ⟨e,he,hhash⟩ := h.kept.sound.holds.toHoldsTables.blockIndexByHash_iff.1 hparent
  have hmain : Lineage s.altBlocks chain e.info.blockHash
      (infos (chain.take (prev+1))) := .main he
  rw [hhash, hprev, take_length] at hmain
  have hinfos := Lineage.unique h.kept.sound.holds.toHoldsTables h.rooted.apart hmain harrives.parent
  exact eq_of_infos hB h.kept.members
    (fun d hd => harrives.valid.members d (mem_append_left _ hd)) hinfos

theorem AddAccepted.holdsValid (hB : UniqueBlocks cx (blocksOf cx (D ++ [r])))
    (hfirst : ParentsIn cx D) (h : Grove cfg checkpoints now (blocksOf cx (D ++ [r])) s chain)
    (hheld : HoldsValid cfg checkpoints now g (blocksOf cx D) s chain) {outcome : AddOutcome}
    {exclude : Option Hash}
    (hacc : AddAccepted cx (blocksOf cx (D ++ [r])) (Settled cfg checkpoints now) s chain r outcome
      exclude t) :
    ∃ chain' : MainChain cx, Grove cfg checkpoints now (blocksOf cx (D ++ [r])) t chain' ∧
      HoldsValid cfg checkpoints now g (blocksOf cx (D ++ [r])) t chain' ∧
      chain'.head? = chain.head? := by
  have hU := hB.uniqueIds
  cases hacc with
  | main prev d b' hpres hraw hprev hparent hcheck hkept =>
    refine ⟨chain ++ [b'],h.push hpres.fresh hkept,?_,head?_append_of_ne_nil _ h.kept.sound.nonempty⟩
    intro c hc b hb
    rcases hheld.arrives hB hfirst hc with hold | ⟨_,c₁,e,rfl,harrives⟩
    · exact (hheld c hold b hb).push b'
    · simp only [getLast?_concat, Option.some.injEq] at hb
      subst hb
      obtain ⟨hblock,hhash⟩ := harrives.presented hpres.parsed hpres.hashed
      have hchain := harrives.chain_eq hB h hprev (by rw [← hblock]; exact hparent)
      subst hchain
      have hacc' : AcceptedOn cfg checkpoints now c₁ b' := by
        refine ⟨s,d,h.kept.inv.nodeAt h.kept.sound,Nat.le_of_eq h.kept.inv.clock,?_⟩
        rw [hraw, ← hprev, Nat.add_sub_cancel]
        exact hcheck
      have heq : b' = e := harrives.accepted.eq_of_sameBody hacc'
        ⟨hblock,hraw.trans harrives.raw.symm,hhash⟩
      subst heq
      rw [infos_append]
      exact Lineage.of_split b' []
  | alternative block hash prev d parentAlt fork infos info hpass hle hkept =>
    refine ⟨chain,h.withAlt hU hpass hkept,?_,rfl⟩
    intro c hc b hb
    rcases hheld.arrives hB hfirst hc with hold | ⟨_,c₁,e,rfl,harrives⟩
    · exact (hheld c hold b hb).insert (hasBlock_false hpass.presented.fresh).1
    · simp only [getLast?_concat, Option.some.injEq] at hb
      subst hb
      exact harrives.lineage_withAlt hU h hpass
  | switched block hash prev d parentAlt fork infos info hpass hlt hkept t p q bs branch hchain
      hswitched =>
    subst hchain
    have hwith := h.withAlt hU hpass hkept
    refine ⟨_,(hswitched.grove hwith).1,?_,
      by simp only [head?_append_of_ne_nil _ hswitched.nonempty]⟩
    intro c hc b hb
    refine hswitched.carries hwith ?_
    rcases hheld.arrives hB hfirst hc with hold | ⟨_,c₁,e,rfl,harrives⟩
    · exact (hheld c hold b hb).insert (hasBlock_false hpass.presented.fresh).1
    · simp only [getLast?_concat, Option.some.injEq] at hb
      subst hb
      exact harrives.lineage_withAlt hU h hpass

theorem Sound.held_mem (hsound : Sound U s chain) (hheld : s.hasBlock x = true) :
    ∃ r ∈ U, r.id? cx = some x := by
  unfold hasBlock at hheld
  rcases Bool.or_eq_true_iff.1 hheld with halt | hmain
  · obtain ⟨a,ha⟩ := Option.isSome_iff_exists.1 halt
    obtain ⟨_,_,hsnd⟩ := hsound.alts x a ha
    exact ⟨a.raw,hsnd.known,hsnd.id?_eq⟩
  · obtain ⟨i,hi⟩ := Option.isSome_iff_exists.1 hmain
    obtain ⟨d,hd,hhash⟩ := hsound.holds.toHoldsTables.blockIndexByHash_iff.1 hi
    exact ⟨d.raw,hsound.linked.known d (mem_of_getElem? hd),by rw [← hhash]; exact d.id?_eq⟩

theorem Lineage.located (hholds : HoldsTables s chain) (h : Lineage s.altBlocks chain x infos) :
    ∃ parent, s.locateParent x = .ok parent := by
  unfold locateParent
  cases h with
  | @main i d hd =>
    have hindex := hholds.blockIndexByHash_iff.2 ⟨d,hd,rfl⟩
    rw [hindex]
    cases s.altBlocks.lookup d.info.blockHash with
    | some a => exact ⟨_,rfl⟩
    | none =>
      simp only
      split <;> exact ⟨_,rfl⟩
  | alt hd _ =>
    rw [hd]
    exact ⟨_,rfl⟩

/-- Nothing but its own switch can refuse a block that ends a valid chain. -/
theorem Arrives.not_refused (hB : UniqueBlocks cx U) (h : Grove cfg checkpoints now U s chain)
    (hnew : s.hasBlock b.info.blockHash = false)
    (harrives : Arrives cfg checkpoints now g U s chain r c₁ b)
    (href : AddRefused cx U (Settled cfg checkpoints now) s chain r e t) :
    ∃ block hash prev d parentAlt fork infos info,
      PassedAlternative cx s r block hash prev parentAlt fork infos info d ∧
      SwitchFailed cx U (Settled cfg checkpoints now)
        (s.withAlt hash (newAlt block r prev info)) chain hash e t ∧
      Kept U (Settled cfg checkpoints now) (s.withAlt hash (newAlt block r prev info)) chain := by
  have hU := hB.uniqueIds
  have hparsed : BlockTemplate.fromBytes r.block = .ok b.block := harrives.raw ▸ b.parsed
  cases href with
  | unparsed e' herror =>
    rw [hparsed] at herror
    cases herror
  | unhashed block e' hblock herror =>
    rw [hparsed] at hblock
    cases hblock
    rw [b.hashed] at herror
    cases herror
  | held block hash hblock hhash hheld =>
    obtain ⟨_,rfl⟩ := harrives.presented hblock hhash
    rw [hnew] at hheld
    cases hheld
  | orphan block hash e' hpres herror =>
    obtain ⟨rfl,_⟩ := harrives.presented hpres.parsed hpres.hashed
    obtain ⟨parent,hlocated⟩ := harrives.parent.located h.kept.sound.holds.toHoldsTables
    rw [hlocated] at herror
    cases herror
  | main block hash prev e' hpres hprev hparent herror =>
    obtain ⟨rfl,rfl⟩ := harrives.presented hpres.parsed hpres.hashed
    have hchain := harrives.chain_eq hB h hprev hparent
    subst hchain
    obtain ⟨k,hok⟩ := harrives.accepted.checkMain (h.kept.inv.nodeAt h.kept.sound)
      (Nat.le_of_eq h.kept.inv.clock.symm)
    rw [harrives.raw, ← hprev, Nat.add_sub_cancel, herror] at hok
    cases hok
  | noBranch block hash prev parentAlt e' hpres hlocated herror =>
    obtain ⟨rfl,rfl⟩ := harrives.presented hpres.parsed hpres.hashed
    cases parentAlt with
    | none => cases herror
    | some parent =>
      obtain ⟨rfl,_⟩ := locateParent_alternative hlocated
      obtain ⟨walk,hwalk⟩ := h.branchHashes hU harrives.parent
      unfold branchInfos at herror
      simp only [hwalk, bind, Except.bind, pure, Except.pure] at herror
      cases herror
  | alternative block hash prev parentAlt fork infos e' hpres hlocated hinfos herror =>
    obtain ⟨rfl,rfl⟩ := harrives.presented hpres.parsed hpres.hashed
    obtain ⟨lineage,hlineage,hsees,hlen⟩ := h.kept.sound.branch_lineage hU h.kept.inv.configured
      hlocated hinfos
    have heq := Lineage.unique h.kept.sound.holds.toHoldsTables h.rooted.apart harrives.parent
      hlineage
    subst heq
    obtain ⟨block',d,hparsed',hok⟩ := harrives.passed.check harrives.infos_ne hsees
      (Nat.le_of_eq h.kept.inv.clock.symm)
    rw [hparsed] at hparsed'
    cases hparsed'
    rw [hlen, herror] at hok
    cases hok
  | switch block hash prev d parentAlt fork infos info e' t hpass hlt hkept hfailed =>
    exact ⟨block,hash,prev,d,parentAlt,fork,infos,info,hpass,hfailed,hkept⟩

theorem SwitchFailed.holds (hB : UniqueBlocks cx U) (hkeeps : s.cfg.KeepsBodies)
    (hbodies : ∀ i, i < chain.length → s.HasBody i) (hfresh : s.hasBlock hash = false)
    (hbranch : ∃ w, (s.withAlt hash alt).branchHashes hash = .ok w)
    (h : Grove cfg checkpoints now U (s.withAlt hash alt) chain)
    (hfailed : SwitchFailed cx U (Settled cfg checkpoints now) (s.withAlt hash alt) chain hash e t)
    (hc : Valid cfg checkpoints now g U c)
    (hlineage : Lineage (s.withAlt hash alt).altBlocks chain x (MainChain.infos c)) :
    Lineage t.altBlocks chain x (MainChain.infos c) := by
  cases hfailed with
  | noBranch e herror =>
    obtain ⟨w,hw⟩ := hbranch
    rw [herror] at hw
    cases hw
  | belowFloor fork floor tip branch _ _ hfloor hlt =>
    have hfloor' : s.cfg.bodyFloor tip = some floor := hfloor
    rw [hkeeps.bodyFloor_eq tip] at hfloor'
    cases hfloor'
    omega
  | noBody fork i branch _ _ hi hnone =>
    rcases not_hasBody_of_rawBlock (s := s) hnone with hnot | hnot
    · exact absurd hkeeps hnot
    · exact absurd (hbodies i hi) hnot
  | undone p q bs done rest failedAt e e' v t w hchain hp hbodies' hoff hgrew hbranch' hfloor hbuilt
      hkept' hsame href hback =>
    subst hchain
    have hundo : s.CanUndoSwitch := .inl ⟨hkeeps.storeRawBlocks,hkeeps.pruneDepth⟩
    have hundo' : cfg.CanUndo bs.length q.length := by
      have hcan := hundo.canUndo hB.uniqueIds hfresh h.kept.sound hp hbranch'
      rwa [hbuilt.length_eq, show s.cfg = cfg from h.kept.inv.configured.cfg] at hcan
    obtain ⟨_,hundone⟩ := hback.undone hp h.kept hbodies' hoff hgrew hfloor hkept' hsame href hundo'
    obtain ⟨doomed,hdoomed,hdrop⟩ :=
      AltBlocks.dropSubtree_spec (s.withAlt hash alt).altBlocks failedAt
    have hnot : x ∉ doomed := fun hmem => hc.not_failed hB hp h hbranch' hbuilt hkept'
      hsame.altBlocks href (hdoomed.descends x hmem) hlineage
    rw [hundone.altBlocks, hdrop]
    exact hlineage.drop hdoomed.closed hnot

theorem PassedAlternative.branch_withAlt {infos : List BlockInfo}
    (hpass : PassedAlternative cx s r block hash prev parentAlt fork infos info d) :
    ∃ w, (s.withAlt hash (newAlt block r prev info)).branchHashes hash = .ok w := by
  obtain ⟨branch,hbranch,_⟩ := hpass.branchHashes
  exact ⟨_,branchHashes_withAlt (newAlt block r prev info) hpass.presented.fresh hbranch⟩

theorem AddRefused.carries (hB : UniqueBlocks cx U) (hkeeps : s.cfg.KeepsBodies)
    (hbodies : ∀ i, i < chain.length → s.HasBody i) (h : Grove cfg checkpoints now U s chain)
    (href : AddRefused cx U (Settled cfg checkpoints now) s chain r e t)
    (hc : Valid cfg checkpoints now g U c)
    (hlineage : Lineage s.altBlocks chain x (MainChain.infos c)) :
    Lineage t.altBlocks chain x (MainChain.infos c) := by
  cases href with
  | switch block hash prev d parentAlt fork infos info e t hpass hlt hkept hfailed =>
    exact hfailed.holds hB hkeeps hbodies hpass.presented.fresh hpass.branch_withAlt
      (h.withAlt hB.uniqueIds hpass hkept) hc
      (hlineage.insert (hasBlock_false hpass.presented.fresh).1)
  | unparsed | unhashed | held | orphan | main | noBranch | alternative => exact hlineage

variable (hB : UniqueBlocks cx (blocksOf cx (D ++ [r])))
include hB

theorem AddRefused.holdsValid
    (hfirst : ParentsIn cx D)
    (hkeeps : s.cfg.KeepsBodies) (hbodies : ∀ i, i < chain.length → s.HasBody i)
    (hsound : Sound (blocksOf cx D) s chain)
    (h : Grove cfg checkpoints now (blocksOf cx (D ++ [r])) s chain)
    (hheld : HoldsValid cfg checkpoints now g (blocksOf cx D) s chain)
    (href : AddRefused cx (blocksOf cx (D ++ [r])) (Settled cfg checkpoints now) s chain r e t) :
    HoldsValid cfg checkpoints now g (blocksOf cx (D ++ [r])) t chain := by
  intro c hc b hb
  rcases hheld.arrives hB hfirst hc with hold | ⟨hr,c₁,d,rfl,harrives⟩
  · exact href.carries hB hkeeps hbodies h hc (hheld c hold b hb)
  · simp only [getLast?_concat, Option.some.injEq] at hb
    subst hb
    have hnew : s.hasBlock d.info.blockHash = false := by
      rw [← Bool.not_eq_true]
      intro hholds
      obtain ⟨r',hr',hid⟩ := hsound.held_mem hholds
      have heq := hB r (.inl (by simp)) r' (mem_blocksOf_concat.2 (.inl hr')) _
        (by rw [← harrives.raw]; exact d.id?_eq) hid
      rw [heq] at hr'
      exact hr hr'
    obtain ⟨block,hash,prev,k,parentAlt,fork,infos,info,hpass,hfailed,hkept⟩ :=
      harrives.not_refused hB h hnew href
    exact hfailed.holds hB hkeeps hbodies hpass.presented.fresh hpass.branch_withAlt
      (h.withAlt hB.uniqueIds hpass hkept) hc (harrives.lineage_withAlt hB.uniqueIds h hpass)

theorem Grove.deliver
    (hT : UniqueTxIds cx (blocksOf cx (D ++ [r])))
    (hfree : ReplayFree checkpoints (blocksOf cx (D ++ [r])))
    (hfirst : ParentsIn cx D)
    (hkeeps : cfg.KeepsBodies) (hbodies : ∀ i, i < chain.length → s.HasBody i)
    (hfits : Ensures (addBlockUnpruned cx r) s.cleared
      (fun _ u => ∀ tip ∈ u.tip, u.altBlocks.Fits tip) (fun _ _ => True))
    (h : Grove cfg checkpoints now (blocksOf cx D) s chain)
    (hheld : HoldsValid cfg checkpoints now g (blocksOf cx D) s chain) :
    ∃ chain' : MainChain cx,
      Grove cfg checkpoints now (blocksOf cx (D ++ [r])) (finalState (ChainState.addBlock cx r s))
        chain' ∧
      HoldsValid cfg checkpoints now g (blocksOf cx (D ++ [r]))
        (finalState (ChainState.addBlock cx r s)) chain' ∧ chain'.head? = chain.head? := by
  have hU := hB.uniqueIds
  have hsub : blocksOf cx D ⊆ blocksOf cx (D ++ [r]) :=
    blocksOf_mono (subset_append_left D [r])
  have hwide := h.widen hsub
  have hclear := hwide.cleared hT hfree
  have hheld' : HoldsValid cfg checkpoints now g (blocksOf cx D) s.cleared chain := hheld
  refine Ensures.finalState (P := fun t => ∃ chain' : MainChain cx,
    Grove cfg checkpoints now (blocksOf cx (D ++ [r])) t chain' ∧
    HoldsValid cfg checkpoints now g (blocksOf cx (D ++ [r])) t chain' ∧ chain'.head? = chain.head?)
    ((addBlock_spec hU (stable_settled cfg now hT hfree) hwide.kept (.inl (by simp))).mono ?_ ?_)
  · rintro outcome t ⟨exclude,u,hrun,hacc,rfl⟩
    rw [pruned_of_fits (hfits.of_ok_of_eq hrun)]
    obtain ⟨chain',hgrove,hnext,hhead⟩ := hacc.holdsValid hB hfirst hclear hheld'
    exact ⟨chain',hgrove.cleared hT hfree,hnext,hhead⟩
  · intro e t href
    have hkeeps' : s.cleared.cfg.KeepsBodies := by
      rw [hclear.kept.inv.configured.cfg]
      exact hkeeps
    have hundo : s.cleared.CanUndoSwitch := .inl ⟨hkeeps'.storeRawBlocks,hkeeps'.pruneDepth⟩
    have hsound : Sound (blocksOf cx D) s.cleared chain :=
      h.kept.sound.congr rfl rfl rfl rfl rfl h.kept.sound.alts
    exact ⟨chain,(href.grove hU hclear hundo).1,
      href.holdsValid hB hfirst hkeeps' hbodies hsound hclear hheld',rfl⟩

end

end Wrkz
