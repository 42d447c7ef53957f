import Wrkz.Chain.Certified
import Wrkz.Chain.Forest
import Wrkz.Chain.RuleErrors

/-!
What holds while the clock does not go back: every block of the main chain would
be accepted again where it stands. So a switch that fails on its branch puts the
old tail back, the same blocks with the same records.
-/

set_option autoImplicit false

namespace Wrkz

open Library

/-- A node that could build its main chain again, at the given time. -/
structure Settled {cx : Crypto} (cfg : Config) (checkpoints : Checkpoints) (now : Nat)
    (s : ChainState) (chain : MainChain cx) : Prop extends Ledgered cfg checkpoints s chain where
  clock : s.clock = now
  certified : Certified cfg checkpoints now chain
  trimmed : Trimmed s chain.length

section

variable {cx : Crypto} {U : Set RawBlock} {I : ChainState → MainChain cx → Prop} {cfg : Config}
  {checkpoints : Checkpoints} {now now' : Nat} {s t u : ChainState} {chain p q : MainChain cx}
  {b : MainBlock cx}

namespace Settled

theorem nodeAt (h : Settled cfg checkpoints now s chain) (hsound : Sound U s chain) :
    NodeAt cfg checkpoints s chain :=
  ⟨hsound.holds,h.spends,h.configured⟩

theorem atClock (h : Settled cfg checkpoints now s chain) (hle : now ≤ now') :
    Settled cfg checkpoints now' (s.atClock now') chain where
  toLedgered := h.toLedgered.congr rfl
    { h.configured with }
  clock := rfl
  certified := h.certified.mono hle
  trimmed := h.trimmed.congr rfl rfl

end Settled

theorem rewindable_settled (cfg : Config) (checkpoints : Checkpoints) (now : Nat) :
    Rewindable U (fun s (chain : MainChain cx) => Settled cfg checkpoints now s chain) :=
  fun hsound hp h hoff =>
    ⟨rewindable_ledgered hsound hp h.toLedgered hoff,hoff.env.clock.trans h.clock,
      h.certified.of_append,h.trimmed.takenOff hoff⟩

theorem stable_settled (cfg : Config) (now : Nat) (hT : UniqueTxIds cx U)
    (hfree : ReplayFree checkpoints U) :
    Stable U (fun s (chain : MainChain cx) => Settled cfg checkpoints now s chain) where
  push {s chain b d prev} hsound h hprev hknown hcheck hfresh := by
    refine ⟨(stable_ledgered hT hfree).push hsound h.toLedgered hprev hknown hcheck hfresh,h.clock,
      h.certified.concat ⟨s,d,h.nodeAt hsound,Nat.le_of_eq h.clock,?_⟩,?_⟩
    · rw [← hprev, Nat.add_sub_cancel]
      exact hcheck
    · rw [List.length_append, List.length_singleton]
      exact h.trimmed.grew (grew_afterPush s chain b) rfl
  takeOff hsound hp h hoff := rewindable_settled cfg checkpoints now hsound hp h hoff.toTakenOff
  branches alts unwound h :=
    ⟨(stable_ledgered hT hfree).branches alts unwound h.toLedgered,h.clock,h.certified,
      h.trimmed.congr rfl rfl⟩

theorem genesis_settled {g : MainBlock cx} (hg : IsGenesis g) (cfg : Config)
    (checkpoints : Checkpoints) (clock : Nat) :
    Settled cfg checkpoints clock
      ((ChainState.openEmpty cfg checkpoints clock).afterPush [] g) [g] where
  toLedgered := genesis_ledgered hg cfg checkpoints clock
  clock := rfl
  certified := by
    intro p c q hchain hp
    cases p with
    | nil => exact absurd rfl hp
    | cons x rest => simp at hchain
  trimmed := by
    have hempty : Trimmed (ChainState.openEmpty cfg checkpoints clock) 0 := by
      refine ⟨by simp [Window.Trimmed],by simp [Window.Trimmed],?_⟩
      intro i hi
      unfold ChainState.HasBody at hi
      rw [openEmpty_store cfg checkpoints clock (by simp) (by simp) (by simp)] at hi
      cases hi
    exact hempty.grew (grew_afterPush _ [] g) rfl

/-- A failed switch can be undone: the node still has the bodies of the branch, or
the pair records of all of it. -/
def Config.CanUndo (cfg : Config) (branch tail : Nat) : Prop :=
  (cfg.storeRawBlocks = true ∧ cfg.pruneDepth = none) ∨ branch ≤ cfg.unwindHistory ∨ branch ≤ tail

theorem Config.admitsBody_of_floor {tip floor i : Nat} (hfloor : cfg.bodyFloor tip = some floor)
    (hi : floor ≤ i) : cfg.admitsBody i := by
  unfold Config.bodyFloor at hfloor
  split at hfloor
  · cases hfloor
  · rename_i hstore
    have hstore' : cfg.storeRawBlocks = true := by simpa using hstore
    simp only [Option.some.injEq] at hfloor
    have hlite : cfg.liteStartHeight ≤ i := by omega
    have hnot : ¬ (cfg.liteStartHeight ≠ 0 ∧ i ≠ 0 ∧ i < cfg.liteStartHeight) := by omega
    unfold Config.admitsBody Config.keepsBody
    cases hprune : cfg.pruneDepth with
    | none => simp [hstore', hnot]
    | some d =>
      have hpos := cfg.pruneDepth_pos d hprune
      have hd : i < i + d := by omega
      simp [hstore', hnot, hd]

theorem Config.bodyFloor_of_stores (hstore : cfg.storeRawBlocks = true) (tip : Nat) :
    ∃ floor, cfg.bodyFloor tip = some floor ∧
      ∀ d, cfg.pruneDepth = some d → tip + 1 ≤ floor + d := by
  cases hprune : cfg.pruneDepth with
  | none => exact ⟨max cfg.liteStartHeight 0,by simp [Config.bodyFloor, hstore, hprune],by simp⟩
  | some d =>
    refine ⟨max cfg.liteStartHeight (tip + 1 - d),by simp [Config.bodyFloor, hstore, hprune],?_⟩
    intro d' hd'
    cases hd'
    omega

variable {bs : MainChain cx} {failedAt : Hash} {e : ChainError}

theorem Grew.knowsRefs (hsound : Sound U s (p ++ q))
    (htrim : Trimmed s (p ++ q).length) (hfloor : s.ClearsFloor (p.length-1)) (hp : p ≠ [])
    (hbodies : ∀ i, p.length ≤ i → i < (p ++ q).length → s.HasBody i) (hcfg : t.cfg = s.cfg)
    (hgrew : Grew t u p.length (p ++ bs).length) (hundo : s.cfg.CanUndo bs.length q.length)
    {i : Nat} (hi : p.length ≤ i) (hi' : i < (p ++ bs).length) : u.KnowsRefs i := by
  have hlen := List.length_pos_iff.2 hp
  have htip : s.tip = some ((p ++ q).length - 1) := by
    rw [hsound.holds.tip]
    exact MainChain.tip_eq_some_iff.2 (by simp; omega)
  simp only [List.length_append] at hi' hbodies htip
  -- with its body the pairs of a block are known
  have hbody : s.cfg.admitsBody i → (∀ d, s.cfg.pruneDepth = some d →
      p.length + bs.length ≤ i + d) → u.KnowsRefs i := by
    intro hadmits hdepth
    refine .inr ((hgrew.bodies i).2 ⟨?_,.inl ⟨hi,by simp; omega,by rw [hcfg]; exact hadmits⟩⟩)
    intro hfallen
    obtain ⟨d,hd,_,hlt⟩ := hfallen
    rw [hcfg] at hd
    have := hdepth d hd
    simp only [List.length_append] at hlt
    omega
  rcases hundo with ⟨hstore,hprune⟩ | hshort | hlow
  · obtain ⟨floor,hsome,_⟩ := Config.bodyFloor_of_stores hstore (p.length + q.length - 1)
    have hle := hfloor _ _ htip hsome
    refine hbody (Config.admitsBody_of_floor hsome (by omega)) ?_
    intro d hd
    rw [hprune] at hd
    cases hd
  · refine .inl ((hgrew.refs i).2 ⟨?_,.inl ⟨hi,by simp; omega,trivial⟩⟩)
    intro hfallen
    obtain ⟨d,hd,_,hlt⟩ := hfallen
    cases hd
    rw [hcfg] at hlt
    simp only [List.length_append] at hlt
    omega
  · have hadmits := htrim.admitted p.length (hbodies p.length (Nat.le_refl _) (by omega))
    have hstore : s.cfg.storeRawBlocks = true := by
      unfold Config.admitsBody Config.keepsBody at hadmits
      simp only [Bool.and_eq_true] at hadmits
      exact hadmits.1.1
    obtain ⟨floor,hsome,hdepth⟩ := Config.bodyFloor_of_stores hstore (p.length + q.length - 1)
    have hle := hfloor _ _ htip hsome
    refine hbody (Config.admitsBody_of_floor hsome (by omega)) ?_
    intro d hd
    have := hdepth d hd
    omega

/-- While the clock stands, a switch that is refused on its branch ends with the
old chain and without the refused block. -/
structure Undone (cfg : Config) (checkpoints : Checkpoints) (now : Nat) (U : Set RawBlock)
    (s u : ChainState) (p bs q : MainChain cx) (failedAt : Hash) : Prop where
  kept : Kept U (fun s (chain : MainChain cx) => Settled cfg checkpoints now s chain) u (p ++ q)
  env : SameEnv s u
  unwound : u.unwound = s.unwound
  altBlocks : u.altBlocks = s.altBlocks.dropSubtree failedAt
  bodies : cfg.pruneDepth = none ∨ bs.length ≤ q.length → ∀ i, u.HasBody i ↔ s.HasBody i
  refs : bs.length ≤ q.length → ∀ i, i < p.length → (u.HasRefs i ↔ s.HasRefs i)

theorem RefusedOn.isRule (hsound : Sound U t chain)
    (href : RefusedOn cx t chain failedAt e) : e.IsRule := by
  obtain ⟨alt,block,halt,hparsed,hcheck⟩ := href
  have hlen := List.length_pos_iff.2 hsound.nonempty
  exact checkMain_rulesOnly (hsound.holds.toHoldsTables.complete (by omega))
    (BlockTemplate.fromBytes_wellFormed hparsed) e hcheck

/-- The old tail is never refused. -/
theorem Settled.not_refused {done done' rest : MainChain cx} (hp : p ≠ [])
    (h : Settled cfg checkpoints now s (p ++ q)) (hq : q = done ++ b :: rest)
    (hdone : List.Forall₂ SameBody done done')
    (hkept : Kept U (Settled cfg checkpoints now) t (p ++ done'))
    (hcheck : t.checkMain cx b.block b.raw.transactions b.info.blockHash
      ((p ++ done').length - 1) = .error e) : False := by
  have hcert : Certified cfg checkpoints now (p ++ done) := by
    have hall := h.certified
    rw [hq, ← List.append_assoc] at hall
    exact hall.of_append
  have heq := hcert.eq_of_sameBody hp hkept.inv.certified hdone
  subst heq
  have haccepted := h.certified (p ++ done') b rest (by rw [hq]; simp) (by simp [hp])
  obtain ⟨d,hok⟩ := haccepted.checkMain (hkept.inv.nodeAt hkept.sound)
    (Nat.le_of_eq hkept.inv.clock.symm)
  rw [hok] at hcheck
  cases hcheck

theorem RolledBack.undone {e e' : ChainError}
    {v w : ChainState} (hp : p ≠ []) (h : Kept U (Settled cfg checkpoints now) s (p ++ q))
    (hbodies : ∀ i, p.length ≤ i → i < (p ++ q).length → s.HasBody i) (hoff : Unwinds s t p q)
    (hgrew : Grew t v p.length (p ++ bs).length) (hfloor : s.ClearsFloor (p.length-1))
    (hkept : Kept U (Settled cfg checkpoints now) v (p ++ bs)) (hsame : SameBranches s v)
    (href : RefusedOn cx v (p ++ bs) failedAt e) (hundo : cfg.CanUndo bs.length q.length)
    (hback : RolledBack cx U (Settled cfg checkpoints now) v p bs q e failedAt e' w) :
    e' = e ∧ Undone cfg checkpoints now U s w p bs q failedAt := by
  have hcfg : s.cfg = cfg := h.inv.configured.cfg
  cases hback with
  | stuck bs₁ bs₂ b w hbs hkept' hnot _ =>
    refine absurd (hgrew.knowsRefs h.sound h.inv.trimmed hfloor hp hbodies hoff.env.cfg
      (by rw [hcfg]; exact hundo) (by simp) ?_) hnot
    rw [hbs]
    simp
  | refused done done' rest b e' w hq hdone hkept' _ hcheck =>
    exact (Settled.not_refused hp h.inv hq hdone hkept' hcheck).elim
  | restored q' w u hall hoff' hgrew' hkept' henv hunwound halts =>
    have heq := h.inv.certified.eq_of_sameBody hp hkept'.inv.certified hall
    subst heq
    obtain ⟨r,rfl⟩ := href.isRule hkept.sound
    have hcfgt : t.cfg = s.cfg := hoff.env.cfg
    have hcfgu : u.cfg = s.cfg := hoff'.env.cfg.trans hsame.env.cfg
    have hup := hgrew.bodies
    have hagain := hgrew'.bodies
    have hupRefs := hgrew.refs
    have hagainRefs := hgrew'.refs
    rw [hcfgt] at hup hupRefs
    rw [hcfgu] at hagain hagainRefs
    refine ⟨rfl,hkept',hsame.env.trans henv,hunwound.trans hsame.unwound,?_,?_,?_⟩
    · rw [halts, hsame.altBlocks]
      rfl
    · intro hlow i
      refine Window.held_iff h.inv.trimmed.bodies h.inv.trimmed.admitted
        (fun i hi => h.sound.holds.hasBody_lt hi) hbodies hoff.cutBodies hup hoff'.cutBodies hagain ?_
      rw [hcfg]
      refine hlow.imp_right fun hle => ?_
      simp only [List.length_append]
      omega
    · intro hlow i hi
      refine Window.held_below_iff h.inv.trimmed.refs hoff.cutRefs hupRefs hoff'.cutRefs hagainRefs
        (.inr ?_) hi
      simp only [List.length_append]
      omega

/-- A property that every call keeps at its own time, and that outlasts the time
between calls, holds after every run whose clock does not go back. -/
theorem runCalls_kept_of_clock (hU : UniqueIds cx U) {J : Nat → ChainState → MainChain cx → Prop}
    (hJ : ∀ now, Stable U (J now)) (hrewind : ∀ now, Rewindable U (J now))
    (hclock : ∀ {s : ChainState} {chain : MainChain cx} {now now' : Nat}, now ≤ now' →
      J now s chain → J now' (s.atClock now') chain) {calls : List Call}
    (hknown : ∀ call ∈ calls, ∀ raw, call.raw? = some raw → raw ∈ U)
    (hmono : (now :: calls.map Call.now).Pairwise (· ≤ ·)) (h : Kept U (J now) s chain) :
    ∃ chain', ∃ last ∈ now :: calls.map Call.now, Kept U (J last) (runCalls cx calls s) chain' := by
  induction calls generalizing s chain now with
  | nil => exact ⟨chain,now,by simp,h⟩
  | cons call calls ih =>
    rw [List.map_cons, List.pairwise_cons] at hmono
    have hle := hmono.1 call.now (by simp)
    obtain ⟨chain₁,hkept⟩ := Call.run_kept hU (hJ call.now) (hrewind call.now)
      (hknown call List.mem_cons_self) ⟨h.sound.atClock call.now,hclock hle h.inv⟩
    obtain ⟨chain',last,hlast,hkept'⟩ := ih
      (fun c hc => hknown c (List.mem_cons_of_mem _ hc)) hmono.2 hkept
    exact ⟨chain',last,List.mem_cons_of_mem _ hlast,hkept'⟩

end

end Wrkz
