import Wrkz.Chain.Attempts
import Wrkz.Chain.Finality
import Wrkz.Chain.Refusal
import Wrkz.Library.Along

/-!
The bodies a node promises and the bodies it holds. `push_block` drops the body that
falls out of the window, `prune_bodies` catches up on those that fell out before. A
body that is stored is always the one last accepted at its index; that it is stored
takes a tip that does not drop, and a catch-up pass that leaves genesis alone.
-/

set_option autoImplicit false

namespace Wrkz

open Library ChainState List

/-- The chain state with the record `prune_floor`, which only the catch-up pass reads
and writes. -/
structure FlooredState where
  state : ChainState
  pruneFloor : Option Nat

namespace ChainState

variable (s : ChainState)

/-- Between an index without a body and one with a body, until they are neighbours. -/
def lowestLoop : Nat → Nat → Nat → Nat
  | 0, _, hi => hi
  | fuel+1, lo, hi =>
    if 1 < hi - lo then
      let mid := lo + (hi - lo) / 2
      if (s.store (.rawBlock mid)).isSome then lowestLoop fuel lo mid else lowestLoop fuel mid hi
    else hi

def lowestStoredBody : Option Nat :=
  match s.tip with
  | none => none
  | some tip =>
    if (s.store (.rawBlock tip)).isSome = false then none
    else if (s.store (.rawBlock 0)).isSome then some 0
    else some (s.lowestLoop tip 0 tip)

def pruneScan (budget finish : Nat) : Nat → Nat → List WriteOp × Nat → List WriteOp × Nat × Nat
  | 0, _, (ops,removed) => (ops,removed,finish)
  | n+1, index, (ops,removed) =>
    if budget ≤ removed then (ops,removed,index)
    else if (s.store (.rawBlock index)).isSome then
      pruneScan budget finish n (index+1) (ops ++ [⟨.rawBlock index,none⟩],removed+1)
    else pruneScan budget finish n (index+1) (ops,removed)

end ChainState

namespace FlooredState

def maxScan : Nat := 200000

variable (x : FlooredState)

def prunedBelow : Nat := x.pruneFloor.getD 0

def pruneStart (floor : Nat) : Nat :=
  if x.prunedBelow = 0 then x.state.lowestStoredBody.getD floor else x.prunedBelow

def prunePass (budget floor : Nat) : Nat × FlooredState :=
  let start := x.pruneStart floor
  let finish := min floor (start + maxScan)
  let (ops,removed,reached) := x.state.pruneScan budget finish (finish - start) start ([],0)
  (removed,⟨{ x.state with store := x.state.store.writeBatch ops },some reached⟩)

def pruneBodies (budget : Nat) : Nat × FlooredState :=
  match x.state.tip,x.state.cfg.pruneDepth with
  | some tip,some _ =>
    match x.state.cfg.bodyFloor tip with
    | none => (0,x)
    | some floor =>
      if floor ≤ x.pruneStart floor then
        (0,if x.prunedBelow < floor then { x with pruneFloor := some floor } else x)
      else x.prunePass budget floor
  | _,_ => (0,x)

/-- The pass does not reach genesis while the node promises its body: it is not a lite
node, genesis has left the window, an earlier pass went past it, or the pass finds
nothing to begin with. -/
def SparesGenesis (budget : Nat) : Prop :=
  ∀ tip ∈ x.state.tip, ∀ d ∈ x.state.cfg.pruneDepth, x.state.cfg.liteStartHeight = 0 ∨ d ≤ tip ∨
    x.prunedBelow ≠ 0 ∨ budget = 0 ∨ (x.state.store (.rawBlock tip)).isSome = false

instance (budget : Nat) : Decidable (x.SparesGenesis budget) :=
  inferInstanceAs (Decidable (∀ tip ∈ x.state.tip, ∀ d ∈ x.state.cfg.pruneDepth, _))

end FlooredState

/-- A body is promised when it was kept at its push and has not left the window. -/
theorem Config.keepsBody_iff {cfg : Config} {i tip : Nat} :
    cfg.keepsBody i tip = true ↔
      cfg.admitsBody i ∧ ∀ d, cfg.pruneDepth = some d → tip < i + d := by
  unfold Config.admitsBody Config.keepsBody
  cases hprune : cfg.pruneDepth with
  | none => simp
  | some d =>
    have hpos := cfg.pruneDepth_pos d hprune
    simp [Nat.lt_add_of_pos_right hpos]

/-- Nothing is held that was not kept or has left its window, and without a window
nothing is lost. -/
structure Stocked (cfg : Config) (s : ChainState) (n : Nat) : Prop where
  configEq : s.cfg = cfg
  trimmed : Window.Trimmed cfg.pruneDepth n s.HasBody
  admitted : ∀ i, s.HasBody i → cfg.admitsBody i
  unpruned : cfg.pruneDepth = none → ∀ i, i < n → cfg.admitsBody i → s.HasBody i

/-- Every body that is promised with `n` blocks on the chain is held. -/
def PromisedHeld (s : ChainState) (n : Nat) : Prop :=
  ∀ i, i < n → s.cfg.keepsBody i (n-1) = true → s.HasBody i

section

variable {cx : Crypto} {U : Set RawBlock} {cfg : Config} {s t : ChainState} {n m : Nat}
  {chain p q : MainChain cx}

theorem HasBody_congr (h : t.store = s.store) : t.HasBody = s.HasBody := by
  unfold ChainState.HasBody
  rw [h]

theorem Stocked.congr (h : Stocked cfg s n) (hstore : t.store = s.store) (hcfg : t.cfg = s.cfg) :
    Stocked cfg t n := by
  have hbody := HasBody_congr hstore
  exact ⟨hcfg.trans h.configEq,by rw [hbody]; exact h.trimmed,by rw [hbody]; exact h.admitted,
    by rw [hbody]; exact h.unpruned⟩

theorem PromisedHeld.congr (h : PromisedHeld s n) (hstore : t.store = s.store)
    (hcfg : t.cfg = s.cfg) : PromisedHeld t n := by
  unfold PromisedHeld
  rw [HasBody_congr hstore, hcfg]
  exact h

theorem Stocked.grew (h : Stocked cfg s n) (hgrew : Grew s t n m) (hcfg : t.cfg = s.cfg) :
    Stocked cfg t m := by
  have hbodies := hgrew.bodies
  rw [h.configEq] at hbodies
  refine ⟨hcfg.trans h.configEq,hbodies.trimmed cfg.pruneDepth_pos h.trimmed,fun i hi => ?_,?_⟩
  · rcases ((hbodies i).1 hi).2 with hnew | hold
    · exact hnew.2.2
    · exact h.admitted i hold
  · intro hnone i hi hadmits
    refine (hbodies i).2 ⟨?_,?_⟩
    · rintro ⟨d,hd,_⟩
      rw [hnone] at hd
      cases hd
    · by_cases hn : n ≤ i
      · exact .inl ⟨hn,hi,hadmits⟩
      · exact .inr (h.unpruned hnone i (by omega) hadmits)

theorem Stocked.takenOff (h : Stocked cfg s (p ++ q).length) (hoff : TakenOff s t p q) :
    Stocked cfg t p.length where
  configEq := hoff.env.cfg.trans h.configEq
  trimmed := hoff.cutBodies.trimmed (by simp) h.trimmed
  admitted i hi := h.admitted i ((hoff.cutBodies i).1 hi).2
  unpruned hnone i hi hadmits :=
    (hoff.cutBodies i).2 ⟨hi,h.unpruned hnone i (by simp; omega) hadmits⟩

theorem stable_stocked (cfg : Config) :
    Stable U (fun s (chain : MainChain cx) => Stocked cfg s chain.length) where
  push {s chain b d prev} _ h _ _ _ _ := by
    rw [length_append, length_singleton]
    exact h.grew (grew_afterPush s chain b) rfl
  takeOff _ _ h hoff := h.takenOff hoff.toTakenOff
  branches _ _ h := h.congr rfl rfl

theorem PromisedHeld.exchange {v : ChainState} {bs : MainChain cx}
    (h : PromisedHeld s (p ++ q).length) (hp : p ≠ []) (hoff : Unwinds s v p q)
    (hgrew : Grew v t p.length (p ++ bs).length) (hcfg : t.cfg = s.cfg)
    (hle : q.length ≤ bs.length) : PromisedHeld t (p ++ bs).length := by
  intro i hi hkeeps
  have hlen := length_pos_iff.2 hp
  rw [hcfg] at hkeeps
  obtain ⟨hadmits,hwindow⟩ := Config.keepsBody_iff.1 hkeeps
  simp only [length_append] at hi hwindow
  refine (hgrew.bodies i).2 ⟨?_,?_⟩
  · rintro ⟨d,hd,_,hlt⟩
    rw [hoff.env.cfg] at hd
    have := hwindow d hd
    simp only [length_append] at hlt
    omega
  · by_cases hnew : p.length ≤ i
    · exact .inl ⟨hnew,by simp; omega,by rw [hoff.env.cfg]; exact hadmits⟩
    · refine .inr ((hoff.cutBodies i).2 ⟨by omega,h i (by simp; omega) ?_⟩)
      refine Config.keepsBody_iff.2 ⟨hadmits,fun d hd => ?_⟩
      have := hwindow d hd
      simp only [length_append]
      omega

end

theorem ChainState.pruneScan_ops {s : ChainState} {budget finish : Nat} (n : Nat) :
    ∀ (index : Nat) (acc : List WriteOp × Nat) (op : WriteOp),
      op ∈ (s.pruneScan budget finish n index acc).1 → op ∈ acc.1 ∨
        ∃ j, op = ⟨.rawBlock j,none⟩ ∧ index ≤ j ∧ j < index + n ∧ s.HasBody j ∧ budget ≠ 0 := by
  induction n with
  | zero =>
    rintro index ⟨ops,removed⟩ op hop
    exact .inl hop
  | succ n ih =>
    rintro index ⟨ops,removed⟩ op hop
    unfold pruneScan at hop
    split at hop
    · exact .inl hop
    · rename_i hbudget
      split at hop
      · rename_i hbody
        rcases ih (index+1) _ op hop with hacc | ⟨j,rfl,hle,hlt,hj,hne⟩
        · rcases mem_append.1 hacc with hacc | hnew
          · exact .inl hacc
          · exact .inr ⟨index,mem_singleton.1 hnew,Nat.le_refl _,by omega,hbody,by omega⟩
        · exact .inr ⟨j,rfl,by omega,by omega,hj,hne⟩
      · rcases ih (index+1) _ op hop with hacc | ⟨j,rfl,hle,hlt,hj,hne⟩
        · exact .inl hacc
        · exact .inr ⟨j,rfl,by omega,by omega,hj,hne⟩

namespace FlooredState

variable {x : FlooredState} {cfg : Config} {budget tip : Nat}

theorem pruneBodies_cases (x : FlooredState) (budget : Nat) :
    (x.pruneBodies budget).2.state = x.state ∨
      ∃ tip d floor ops, x.state.tip = some tip ∧ x.state.cfg.pruneDepth = some d ∧
        x.state.cfg.bodyFloor tip = some floor ∧
        (x.pruneBodies budget).2.state = { x.state with store := x.state.store.writeBatch ops } ∧
        ∀ op ∈ ops, ∃ j, op = ⟨.rawBlock j,none⟩ ∧ x.pruneStart floor ≤ j ∧ j < floor ∧
          x.state.HasBody j ∧ budget ≠ 0 := by
  unfold pruneBodies
  split
  · rename_i tip d htip hdepth
    split
    · exact .inl rfl
    · rename_i floor hfloor
      split
      · refine .inl ?_
        split <;> rfl
      · rename_i hstart
        refine .inr ⟨tip,d,floor,_,htip,hdepth,hfloor,rfl,fun op hop => ?_⟩
        rcases pruneScan_ops _ _ _ op hop with hnone | ⟨j,rfl,hle,hlt,hj,hne⟩
        · simp at hnone
        · exact ⟨j,rfl,hle,by omega,hj,hne⟩
  · exact .inl rfl

/-- Whatever a pass deletes of a node that has always been pruned is genesis. -/
theorem eq_zero_of_pruned (h : Stocked cfg x.state (tip+1)) {d floor j : Nat}
    (hdepth : cfg.pruneDepth = some d) (hfloor : cfg.bodyFloor tip = some floor) (hj : j < floor)
    (hbody : x.state.HasBody j) : j = 0 ∧ cfg.liteStartHeight ≠ 0 ∧ tip < d := by
  have hadmits := h.admitted j hbody
  have hin := h.trimmed j d hdepth
  have hwindow : tip < j + d := by
    by_contra hout
    exact hin (by omega) hbody
  unfold Config.admitsBody Config.keepsBody at hadmits
  simp only [Bool.and_eq_true, Bool.not_eq_true', decide_eq_false_iff_not] at hadmits
  have hlite := hadmits.1.2
  have hstore : cfg.storeRawBlocks = true := hadmits.1.1
  simp only [Config.bodyFloor, hstore, hdepth, Bool.true_eq_false, if_false,
    Option.some.injEq] at hfloor
  omega

theorem pruneBodies_state (h : Stocked cfg x.state (tip+1)) (htip : x.state.tip = some tip)
    (hspares : x.SparesGenesis budget) : (x.pruneBodies budget).2.state = x.state := by
  rcases pruneBodies_cases x budget with hsame | ⟨tip',d,floor,ops,htip',hdepth,hfloor,hstate,hops⟩
  · exact hsame
  · cases htip.symm.trans htip'
    cases ops with
    | nil => exact hstate
    | cons op ops =>
      obtain ⟨j,_,hstart,hlt,hbody,hbudget⟩ := hops op mem_cons_self
      have hdepth' : cfg.pruneDepth = some d := h.configEq ▸ hdepth
      obtain ⟨rfl,hlite,hwindow⟩ := eq_zero_of_pruned h hdepth' (h.configEq ▸ hfloor) hlt hbody
      have hbelow : x.prunedBelow = 0 := by
        by_contra hne
        unfold pruneStart at hstart
        rw [if_neg hne] at hstart
        omega
      -- the pass began at genesis, so the search found the body of the tip
      have htop : (x.state.store (.rawBlock tip)).isSome = true := by
        unfold pruneStart lowestStoredBody at hstart
        simp only [hbelow, if_true, htip] at hstart
        by_contra hnone
        rw [if_pos (by simpa using hnone)] at hstart
        simp only [Option.getD_none] at hstart
        omega
      rcases hspares tip htip d hdepth with hno | hno | hno | hno | hno
      · rw [h.configEq] at hno
        exact absurd hno hlite
      · omega
      · exact absurd hbelow hno
      · exact absurd hno hbudget
      · rw [htop] at hno
        cases hno

end FlooredState

/-- The index and the bytes of a block the main chain's rules accepted. -/
def Attempt.accepted? (cx : Crypto) : Attempt → Option (Nat × RawBlock)
  | .main s _ block raw hash prev =>
    (s.checkMain cx block raw.transactions hash prev).toOption.map fun _ => (prev+1,raw)
  | .alternative _ _ _ _ _ _ => none

/-- The bytes last accepted at an index; genesis is accepted from the start. -/
def acceptedAt (cx : Crypto) (log : List Attempt) (i : Nat) : Option RawBlock :=
  log.foldl (fun last a => (a.accepted? cx).elim last fun e => if e.1 = i then some e.2 else last)
    (if i = 0 then (genesisRaws cx).head? else none)

theorem acceptedAt_concat (cx : Crypto) (log : List Attempt) (a : Attempt) (i : Nat) :
    acceptedAt cx (log ++ [a]) i =
      (a.accepted? cx).elim (acceptedAt cx log i) fun e =>
        if e.1 = i then some e.2 else acceptedAt cx log i := by
  simp [acceptedAt, foldl_append]

/-- Every stored body is the one last accepted at its index. -/
structure StoresAccepted (cx : Crypto) (x : ChainState × List Attempt) : Prop where
  bodies : ∀ i raw, x.1.store (.rawBlock i) = some raw → acceptedAt cx x.2 i = some raw
  admitted : ∀ i, x.1.HasBody i → x.1.cfg.admitsBody i

section

variable {cx : Crypto} {s : ChainState} {block : BlockTemplate} {raw : RawBlock} {hash : Hash}
  {prev : Nat}

theorem addToMain_store (cx : Crypto) (s : ChainState) (block : BlockTemplate) (raw : RawBlock)
    (hash : Hash) (prev : Nat) :
    (∃ e, s.checkMain cx block raw.transactions hash prev = .error e ∧
      finalState (addToMain cx block raw hash prev s) = s) ∨
    ∃ a coinbaseHash, s.checkMain cx block raw.transactions hash prev = .ok a ∧
      (finalState (addToMain cx block raw hash prev s)).store =
        s.pushed (prev+1) block raw coinbaseHash a ∧
      (finalState (addToMain cx block raw hash prev s)).cfg = s.cfg := by
  unfold addToMain
  rw [run_get_bind]
  cases hcheck : s.checkMain cx block raw.transactions hash prev with
  | error e => exact .inl ⟨e,rfl,rfl⟩
  | ok a =>
    right
    obtain ⟨head,_,_,_,_,_,hhead,_⟩ := checkMain_ok_iff.1 hcheck
    obtain ⟨_,coinbase,_,_,_,hcoinbase,_⟩ := checkHead_ok_iff.1 hhead
    have hhash : block.baseTransaction.hash cx = .ok (cx.cnFastHash coinbase) := by
      simp [Transaction.hash, hcoinbase, bind, Except.bind, pure, Except.pure]
    refine ⟨a,cx.cnFastHash coinbase,rfl,?_⟩
    rw [run_bind_of_ok (liftExcept_ok a s)]
    have hpush : (finalState (pushBlock cx (prev+1) block raw a s)).store =
        s.pushed (prev+1) block raw (cx.cnFastHash coinbase) a ∧
        (finalState (pushBlock cx (prev+1) block raw a s)).cfg = s.cfg := by
      unfold pushBlock
      rw [hhash]
      unfold updateBlockMedianSize
      dsimp only
      split <;> exact ⟨rfl,rfl⟩
    cases hrun : pushBlock cx (prev+1) block raw a s with
    | ok u t =>
      rw [hrun] at hpush
      rw [run_bind_of_ok hrun]
      exact hpush
    | error e t =>
      rw [hrun] at hpush
      rw [run_bind_of_error hrun]
      exact hpush

theorem pushed_rawBlock_self {coinbaseHash : Hash} {a : Accepted} {index : Nat}
    (hkeeps : s.cfg.admitsBody index) :
    s.pushed index block raw coinbaseHash a (.rawBlock index) = some raw := by
  refine pushed_of_pushes (.rawBlock hkeeps) fun r h => ?_
  cases h with
  | rawBlock => rfl
  | prunedBlock hd => exact absurd (s.cfg.pruneDepth_pos _ hd) (by omega)

theorem storesAccepted_holdsThrough (cx : Crypto) :
    ChainState.HoldsThrough cx (StoresAccepted cx) where
  drop s t log hdrop h := by
    refine ⟨fun i raw hraw => h.bodies i raw (hdrop.bodies i raw hraw),fun i hi => ?_⟩
    obtain ⟨raw,hraw⟩ := Option.isSome_iff_exists.1 hi
    have hold : s.HasBody i := Option.isSome_iff_exists.2 ⟨raw,hdrop.bodies i raw hraw⟩
    have hadmits := h.admitted i hold
    rw [← hdrop.cfg] at hadmits
    exact hadmits
  note s view block raw hash prev log h := by
    refine ⟨fun i raw hraw => ?_,h.admitted⟩
    rw [acceptedAt_concat]
    exact h.bodies i raw hraw
  main held block raw hash prev x h := by
    have hrun : addToMainTraced cx held block raw hash prev x =
        Traced.lift (addToMain cx block raw hash prev)
          (x.1,x.2 ++ [.main x.1 held block raw hash prev]) := rfl
    have hfinal : finalState (addToMainTraced cx held block raw hash prev x) =
        (finalState (addToMain cx block raw hash prev x.1),
          x.2 ++ [.main x.1 held block raw hash prev]) := by
      rw [hrun]
      unfold Traced.lift
      cases addToMain cx block raw hash prev x.1 <;> rfl
    rw [hfinal]
    rcases addToMain_store cx x.1 block raw hash prev with
      ⟨e,hcheck,hsame⟩ | ⟨a,coinbaseHash,hcheck,hstore,hcfg⟩
    · rw [hsame]
      refine ⟨fun i r hr => ?_,h.admitted⟩
      rw [acceptedAt_concat]
      simp only [Attempt.accepted?, hcheck]
      exact h.bodies i r hr
    · have hkept : ∀ i r, (finalState (addToMain cx block raw hash prev x.1)).store
          (.rawBlock i) = some r → (i = prev + 1 ∧ r = raw) ∨
            (i ≠ prev + 1 ∧ x.1.store (.rawBlock i) = some r) := by
        intro i r hr
        rw [hstore] at hr
        by_cases hi : i = prev + 1
        · subst hi
          rcases x.1.pushed_rawBlock_some _ _ _ _ _ hr with hnew | hold
          · exact .inl hnew
          · -- a body that was there is one that is kept, so the new one replaces it
            have hadmits := h.admitted (prev+1) (Option.isSome_iff_exists.2 ⟨r,hold⟩)
            rw [pushed_rawBlock_self hadmits] at hr
            cases hr
            exact .inl ⟨rfl,rfl⟩
        · rcases x.1.pushed_rawBlock_some _ _ _ _ _ hr with hnew | hold
          · exact absurd hnew.1 hi
          · exact .inr ⟨hi,hold⟩
      refine ⟨fun i r hr => ?_,fun i hi => ?_⟩
      · rw [acceptedAt_concat]
        simp only [Attempt.accepted?, hcheck, Except.toOption, Option.map_some, Option.elim_some]
        rcases hkept i r hr with ⟨rfl,rfl⟩ | ⟨hi,hold⟩
        · rw [if_pos rfl]
        · rw [if_neg (Ne.symm hi)]
          exact h.bodies i r hold
      · rw [hcfg]
        have hgrew := hi
        unfold ChainState.HasBody at hgrew
        rw [hstore] at hgrew
        rcases (pushed_hasBody.1 hgrew).2 with ⟨rfl,hnew⟩ | hold
        · exact hnew
        · exact h.admitted i hold

end

/-- If the block would make its branch the heavier one, the branch then ends at the height of
the tip or one above it. -/
def ChainState.keepsLevel (s : ChainState) (raw : RawBlock) : Bool :=
  match BlockTemplate.fromBytes raw.block with
  | .error _ => true
  | .ok block =>
    match s.branchUnder block with
    | none => true
    | some (prev,fork,infos) =>
      match s.branchWeight prev fork infos with
      | none => true
      | some weight =>
        decide (weight ≤ s.mainCumulative) ||
          s.tip.all fun tip => decide (prev ≤ tip) && decide (tip ≤ prev + 1)

section

variable {cx : Crypto} {U : Set RawBlock} {cfg : Config} {checkpoints : Checkpoints} {now : Nat}
  {s t : ChainState} {raw : RawBlock} {chain : MainChain cx} {hash : Hash} {alt : AltBlock}
  {e : ChainError}

theorem ChainState.cleared_keepsLevel (s : ChainState) (raw : RawBlock) :
    s.cleared.keepsLevel raw = s.keepsLevel raw := by
  unfold keepsLevel
  simp only [cleared_branchUnder, cleared_branchWeight]
  rfl

theorem PassedAlternative.level {block : BlockTemplate} {prev d fork : Nat}
    {parentAlt : Option Hash} {infos : List BlockInfo} {info : BlockInfo}
    (h : PassedAlternative cx s raw block hash prev parentAlt fork infos info d)
    (hheavier : s.mainCumulative < info.cumulativeDifficulty) (hlevel : s.keepsLevel raw = true)
    (hs : Sound U s chain) : prev + 1 ≤ chain.length ∧ chain.length ≤ prev + 2 := by
  have hlen := length_pos_iff.2 hs.nonempty
  have htip : s.tip = some (chain.length - 1) := by
    rw [hs.holds.tip]
    exact MainChain.tip_eq_some_iff.2 (by omega)
  unfold keepsLevel at hlevel
  simp only [h.presented.parsed, h.branchUnder_eq, h.branchWeight_eq, Nat.not_le.2 hheavier, htip,
    decide_false, Bool.false_or, Option.all_some, Bool.and_eq_true, decide_eq_true_eq] at hlevel
  omega

theorem Settled.stocked (h : Settled cfg checkpoints now s chain) (hprune : cfg.pruneDepth ≠ none) :
    Stocked cfg s chain.length := by
  have hcfg := h.configured.cfg
  exact ⟨hcfg,hcfg ▸ h.trimmed.bodies,hcfg ▸ h.trimmed.admitted,fun hnone => absurd hnone hprune⟩

/-- A switch that fails below its last block, on a branch that ends no more than one above the
old tip, gives all bodies back. -/
theorem SwitchFailed.promised (hU : UniqueIds cx U)
    (h : Kept U (Settled cfg checkpoints now) (s.withAlt hash alt) chain)
    (hheld : PromisedHeld (s.withAlt hash alt) chain.length) (hlevel : alt.index ≤ chain.length)
    (hfailed : SwitchFailed cx U (Settled cfg checkpoints now) (s.withAlt hash alt) chain hash e t) :
    ∃ chain' : MainChain cx, Kept U (Settled cfg checkpoints now) t chain' ∧
      PromisedHeld t chain'.length := by
  cases hfailed with
  | noBranch | belowFloor | noBody => exact ⟨chain,h,hheld⟩
  | undone p q bs done rest failedAt e e' v t w hchain hp hbodies hoff hgrew hbranch hfloor hbuilt
      hkept hsame href hback =>
    subst hchain
    have hle : bs.length ≤ q.length := by
      have hlength := branch_length hU h.sound hp (by simp) hbranch
      rw [← hbuilt.length_eq]
      simp only [length_append, length_cons] at hlength hlevel
      omega
    obtain ⟨rfl,hundone⟩ := hback.undone hp h hbodies hoff hgrew hfloor hkept hsame href
      (.inr (.inr hle))
    refine ⟨_,hundone.kept,fun i hi hkeeps => ?_⟩
    rw [hundone.env.cfg] at hkeeps
    exact (hundone.bodies (.inr hle) i).2 (hheld i hi hkeeps)

theorem PromisedHeld.push {b : MainBlock cx} (h : PromisedHeld s chain.length) (hne : chain ≠ []) :
    PromisedHeld (s.afterPush chain b) (chain ++ [b]).length := by
  intro i hi hkeeps
  have hlen := length_pos_iff.2 hne
  simp only [length_append, length_singleton] at hi hkeeps
  obtain ⟨hadmits,hwindow⟩ := Config.keepsBody_iff.1 hkeeps
  have hwindow' : ∀ d, s.cfg.pruneDepth = some d → chain.length < i + d := by
    intro d hd
    have := hwindow d hd
    omega
  refine ((grew_afterPush s chain b).bodies i).2 ⟨?_,?_⟩
  · rintro ⟨d,hd,_,hlt⟩
    have := hwindow' d hd
    omega
  · by_cases hnew : i = chain.length
    · exact .inl ⟨by omega,by omega,hadmits⟩
    · refine .inr (h i (by omega) (Config.keepsBody_iff.2 ⟨hadmits,fun d hd => ?_⟩))
      have := hwindow' d hd
      omega

theorem addBlock_promised (hU : UniqueIds cx U) (hT : UniqueTxIds cx U)
    (hfree : ReplayFree checkpoints U) (hknown : raw ∈ U)
    (h : Kept U (Settled cfg checkpoints now) s chain) (hheld : PromisedHeld s chain.length)
    (hlevel : s.keepsLevel raw = true) :
    ∃ chain' : MainChain cx,
      Kept U (Settled cfg checkpoints now) (finalState (addBlock cx raw s)) chain' ∧
      PromisedHeld (finalState (addBlock cx raw s)) chain'.length := by
  have hI := stable_settled cfg now hT hfree
  have hclear : PromisedHeld s.cleared chain.length := hheld.congr rfl rfl
  have hsound := (h.cleared hI).sound
  have hlevel' := (cleared_keepsLevel s raw).trans hlevel
  refine Ensures.finalState (P := fun t => ∃ chain' : MainChain cx,
    Kept U (Settled cfg checkpoints now) t chain' ∧ PromisedHeld t chain'.length)
    ((addBlock_spec hU hI h hknown).mono ?_ ?_)
  · rintro outcome t ⟨exclude,u,_,haccepted,rfl⟩
    have hdone : ∀ {chain' : MainChain cx}, Kept U (Settled cfg checkpoints now) u chain' →
        PromisedHeld u chain'.length → ∃ chain' : MainChain cx,
          Kept U (Settled cfg checkpoints now) (u.pruned exclude).cleared chain' ∧
          PromisedHeld (u.pruned exclude).cleared chain'.length := by
      intro chain' hkept hheld'
      refine ⟨chain',(hkept.pruned hI exclude).cleared hI,hheld'.congr ?_ ?_⟩
      · unfold cleared pruned
        split <;> rfl
      · unfold cleared pruned
        split <;> rfl
    cases haccepted with
    | main prev d b hpres hraw hprev hparent hcheck hkept =>
      exact hdone hkept (hclear.push h.sound.nonempty)
    | alternative block hash prev d parentAlt fork infos info hpass hlow hkept =>
      exact hdone hkept (hclear.congr rfl rfl)
    | switched block hash prev d parentAlt fork infos info hpass hlt hkept t p q bs branch hchain
        hswitched =>
      subst hchain
      obtain ⟨v,hoff,hgrew⟩ := hswitched.grew
      have hheight := (hpass.level hlt hlevel' hsound).2
      have hne : branch ≠ [] := by
        rintro rfl
        obtain ⟨branch',hbranch',_⟩ := hpass.branchHashes
        have hcons := branchHashes_withAlt (newAlt block raw prev info) hpass.presented.fresh hbranch'
        rw [hswitched.branchEq] at hcons
        simp at hcons
      have hlength := branch_length hU hkept.sound hswitched.nonempty hne hswitched.branchEq
      refine hdone hswitched.kept (PromisedHeld.exchange (q := q)
        (hclear.congr (t := s.cleared.withAlt hash (newAlt block raw prev info)) rfl rfl)
        hswitched.nonempty hoff hgrew hswitched.env.cfg ?_)
      rw [← hswitched.built.length_eq]
      simp only [length_append, newAlt] at hheight hlength
      omega
  · rintro e t hrefused
    cases hrefused with
    | switch block hash prev d parentAlt fork infos info e t hpass hlt hkept hfailed =>
      exact hfailed.promised hU hkept (hclear.congr rfl rfl) (hpass.level hlt hlevel' hsound).1
    | unparsed | unhashed | held | orphan | main | noBranch | alternative =>
      exact ⟨chain,h.cleared hI,hclear⟩

end

inductive BodyCall where
  | addBlock (now : Nat) (raw : RawBlock)
  | pruneBodies (budget : Nat)
  deriving DecidableEq, Repr

namespace BodyCall

def raw? : BodyCall → Option RawBlock
  | .addBlock _ raw => some raw
  | .pruneBodies _ => none

def run (cx : Crypto) : BodyCall → FlooredState → FlooredState
  | .addBlock now raw, x =>
    { x with state := finalState (ChainState.addBlock cx raw (x.state.atClock now)) }
  | .pruneBodies budget, x => (x.pruneBodies budget).2

def runTraced (cx : Crypto) : BodyCall → FlooredState × List Attempt → FlooredState × List Attempt
  | .addBlock now raw, (x,log) =>
    let y := finalState (addBlockTraced cx raw (x.state.atClock now,log))
    ({ x with state := y.1 },y.2)
  | .pruneBodies budget, (x,log) => ((x.pruneBodies budget).2,log)

/-- On a node that prunes, the clock does not go back and a block keeps the level; a catch-up
pass spares genesis. -/
def Safe : BodyCall → FlooredState → Prop
  | .addBlock now raw, x => x.state.cfg.pruneDepth = none ∨
    x.state.clock ≤ now ∧ (x.state.atClock now).keepsLevel raw = true
  | .pruneBodies budget, x => x.SparesGenesis budget

instance (call : BodyCall) (x : FlooredState) : Decidable (call.Safe x) :=
  match call with
  | .addBlock _ _ => inferInstanceAs (Decidable (_ ∨ _ ∧ _))
  | .pruneBodies budget => inferInstanceAs (Decidable (x.SparesGenesis budget))

theorem runTraced_fst (cx : Crypto) (call : BodyCall) (x : FlooredState × List Attempt) :
    (call.runTraced cx x).1 = call.run cx x.1 := by
  cases call with
  | addBlock now raw =>
    have hfollows : (finalState (ChainState.addBlockTraced cx raw (x.1.state.atClock now,x.2))).1 =
        finalState (ChainState.addBlock cx raw (x.1.state.atClock now)) :=
      (ChainState.addBlockTraced_follows raw).finalState_eq _
    simp only [runTraced, run, hfollows]
  | pruneBodies budget => rfl

end BodyCall

def runBodyCalls (cx : Crypto) (calls : List BodyCall) (x : FlooredState) : FlooredState :=
  calls.foldl (fun x call => call.run cx x) x

def runBodyCallsTraced (cx : Crypto) (calls : List BodyCall) (x : FlooredState × List Attempt) :
    FlooredState × List Attempt :=
  calls.foldl (fun x call => call.runTraced cx x) x

theorem runBodyCallsTraced_fst (cx : Crypto) (calls : List BodyCall)
    (x : FlooredState × List Attempt) :
    (runBodyCallsTraced cx calls x).1 = runBodyCalls cx calls x.1 := by
  induction calls generalizing x with
  | nil => rfl
  | cons call calls ih =>
    unfold runBodyCallsTraced runBodyCalls
    rw [foldl_cons, foldl_cons, ← BodyCall.runTraced_fst]
    exact ih (call.runTraced cx x)

section

variable {cx : Crypto} {U : Set RawBlock} {cfg : Config} {checkpoints : Checkpoints}
  {x : FlooredState × List Attempt} {chain : MainChain cx}

/-- The node, its chain and its log between two calls. -/
structure KeepsPromises (U : Set RawBlock) (cfg : Config) (checkpoints : Checkpoints)
    (x : FlooredState × List Attempt) (chain : MainChain cx) : Prop where
  kept : Kept U (fun s (chain : MainChain cx) => Stocked cfg s chain.length) x.1.state chain
  settled : cfg.pruneDepth = none ∨ Settled cfg checkpoints x.1.state.clock x.1.state chain
  held : PromisedHeld x.1.state chain.length
  stored : StoresAccepted cx (x.1.state,x.2)

/-- What is assumed of the blocks offered to a node that prunes. -/
def Undoable (cx : Crypto) (cfg : Config) (checkpoints : Checkpoints) (U : Set RawBlock) : Prop :=
  cfg.pruneDepth = none ∨ UniqueTxIds cx U ∧ ReplayFree checkpoints U

variable (hU : UniqueIds cx U) (hundo : Undoable cx cfg checkpoints U)
include hU hundo

theorem KeepsPromises.addBlock (h : KeepsPromises U cfg checkpoints x chain) {now : Nat}
    {raw : RawBlock} (hknown : raw ∈ U) (hsafe : (BodyCall.addBlock now raw).Safe x.1) :
    let t := finalState (ChainState.addBlock cx raw (x.1.state.atClock now))
    ∃ chain' : MainChain cx, Kept U (fun s chain => Stocked cfg s chain.length) t chain' ∧
      (cfg.pruneDepth = none ∨ Settled cfg checkpoints t.clock t chain') ∧
      PromisedHeld t chain'.length := by
  by_cases hnone : cfg.pruneDepth = none
  · obtain ⟨chain',hkept',_⟩ := addBlock_step hU (stable_stocked cfg)
      ⟨h.kept.sound.atClock now,h.kept.inv.congr rfl rfl⟩ hknown
    refine ⟨chain',hkept',.inl hnone,fun i hi hkeeps => ?_⟩
    rw [hkept'.inv.configEq] at hkeeps
    exact hkept'.inv.unpruned hnone i hi (Config.keepsBody_iff.1 hkeeps).1
  · obtain ⟨hT,hfree⟩ := hundo.resolve_left hnone
    obtain ⟨hclock,hlevel⟩ := hsafe.resolve_left (by rw [h.kept.inv.configEq]; exact hnone)
    obtain ⟨chain',hkept',hheld'⟩ := addBlock_promised hU hT hfree hknown
      ⟨h.kept.sound.atClock now,(h.settled.resolve_left hnone).atClock hclock⟩
      (h.held.congr rfl rfl) hlevel
    exact ⟨chain',⟨hkept'.sound,hkept'.inv.stocked hnone⟩,.inr (hkept'.inv.clock.symm ▸ hkept'.inv),
      hheld'⟩

theorem KeepsPromises.step (h : KeepsPromises U cfg checkpoints x chain) (call : BodyCall)
    (hknown : ∀ raw, call.raw? = some raw → raw ∈ U) (hsafe : call.Safe x.1) :
    ∃ chain' : MainChain cx, KeepsPromises U cfg checkpoints (call.runTraced cx x) chain' := by
  cases call with
  | addBlock now raw =>
    have hstored := (storesAccepted_holdsThrough cx).addBlockTraced raw (x.1.state.atClock now,x.2)
      ⟨h.stored.bodies,h.stored.admitted⟩
    have hfst : (finalState (addBlockTraced cx raw (x.1.state.atClock now,x.2))).1 =
        finalState (ChainState.addBlock cx raw (x.1.state.atClock now)) :=
      (addBlockTraced_follows raw).finalState_eq _
    obtain ⟨chain',hkept',hsettled',hheld'⟩ := h.addBlock hU hundo (hknown raw rfl) hsafe
    rw [← hfst] at hkept' hsettled' hheld'
    exact ⟨chain',hkept',hsettled',hheld',hstored⟩
  | pruneBodies budget =>
    have hlen := length_pos_iff.2 h.kept.sound.nonempty
    have htip : x.1.state.tip = some (chain.length - 1) := by
      rw [h.kept.sound.holds.tip]
      exact MainChain.tip_eq_some_iff.2 (by omega)
    have hstocked : Stocked cfg x.1.state (chain.length - 1 + 1) := by
      rw [Nat.sub_add_cancel hlen]
      exact h.kept.inv
    have hsame := FlooredState.pruneBodies_state hstocked htip hsafe
    refine ⟨chain,?_,?_,?_,?_⟩ <;> simp only [BodyCall.runTraced, hsame]
    · exact h.kept
    · exact h.settled
    · exact h.held
    · exact h.stored

omit hU hundo

theorem genesis_keepsPromises {g : MainBlock cx} (hg : IsGenesis g) (cfg : Config)
    (checkpoints : Checkpoints) (clock : Nat) (raws : List RawBlock) {s : ChainState}
    (hs : s = (openEmpty cfg checkpoints clock).afterPush [] g) :
    KeepsPromises (blocksOf cx raws) cfg checkpoints (⟨s,none⟩,[]) [g] := by
  have hsound := genesis_sound hg (hg.mem_blocksOf raws) hs
  have hempty : ∀ i, ¬ (openEmpty cfg checkpoints clock).HasBody i := by
    intro i hi
    unfold ChainState.HasBody at hi
    rw [openEmpty_store cfg checkpoints clock (by simp) (by simp) (by simp)] at hi
    cases hi
  have hstart : Stocked cfg (openEmpty cfg checkpoints clock) 0 :=
    ⟨rfl,fun i _ _ _ => hempty i,fun i hi => absurd hi (hempty i),fun _ i hi => absurd hi (by omega)⟩
  have hgrew := grew_afterPush (openEmpty cfg checkpoints clock) [] g
  have hstocked : Stocked cfg s [g].length := by
    rw [hs]
    exact hstart.grew hgrew rfl
  refine ⟨⟨hsound,hstocked⟩,.inr ?_,fun i hi hkeeps => ?_,fun i raw hraw => ?_,fun i hi => ?_⟩
  · subst hs
    exact genesis_settled hg cfg checkpoints clock
  · rw [hstocked.configEq] at hkeeps
    simp only [length_singleton] at hi hkeeps
    obtain ⟨hadmits,hwindow⟩ := Config.keepsBody_iff.1 hkeeps
    rw [hs]
    refine (hgrew.bodies i).2 ⟨?_,.inl ⟨by simp,by simpa using hi,hadmits⟩⟩
    rintro ⟨d,hd,_,hlt⟩
    have := hwindow d hd
    simp only [length_nil] at hlt
    omega
  · obtain ⟨b,hb,rfl⟩ := hsound.holds.rawBlocks i raw hraw
    have hi := (List.getElem?_eq_some_iff.1 hb).1
    simp only [List.length_singleton, Nat.lt_one_iff] at hi
    subst hi
    simp only [getElem?_cons_zero, Option.some.injEq] at hb
    subst hb
    have hraws : genesisRaws cx = [g.raw] := by
      unfold genesisRaws
      rw [hg.template]
      dsimp only
      rw [hg.blob, ← hg.rawTransactions]
    simp [acceptedAt, hraws]
  · have hadmits := hstocked.admitted i hi
    rw [← hstocked.configEq] at hadmits
    exact hadmits

include hU hundo

theorem runBodyCallsTraced_keepsPromises {calls : List BodyCall}
    (hknown : ∀ call ∈ calls, ∀ raw, call.raw? = some raw → raw ∈ U)
    (hsafe : Along (fun before call => call.Safe (runBodyCalls cx before x.1)) calls)
    (h : KeepsPromises U cfg checkpoints x chain) : ∃ chain' : MainChain cx,
      KeepsPromises U cfg checkpoints (runBodyCallsTraced cx calls x) chain' := by
  induction calls using reverseRecOn with
  | nil => exact ⟨chain,h⟩
  | append_singleton calls call ih =>
    obtain ⟨hbefore,hlast⟩ := along_concat.1 hsafe
    obtain ⟨chain',hnext⟩ := ih (fun c hc => hknown c (mem_append_left _ hc)) hbefore
    have hrun : runBodyCallsTraced cx (calls ++ [call]) x =
        call.runTraced cx (runBodyCallsTraced cx calls x) := by
      simp [runBodyCallsTraced]
    rw [hrun]
    rw [← runBodyCallsTraced_fst] at hlast
    exact hnext.step hU hundo call (hknown call (by simp)) hlast

end

/-- While a node that prunes is offered no block that would make a branch of another height the
heavier one, and no catch-up pass reaches genesis in its window, `raw_block` answers for every
index it promises with the bytes last accepted there. -/
theorem promised_bodies_kept {cx : Crypto} {cfg : Config} {checkpoints : Checkpoints}
    {clock : Nat} {s₀ : ChainState} {calls : List BodyCall}
    (hopen : openOrGenesis cx cfg checkpoints clock = .ok ⟨⟩ s₀)
    (hU : UniqueIds cx (blocksOf cx (calls.filterMap BodyCall.raw?)))
    (hundo : Undoable cx cfg checkpoints (blocksOf cx (calls.filterMap BodyCall.raw?)))
    (hsafe : Along (fun before call => call.Safe (runBodyCalls cx before ⟨s₀,none⟩)) calls) :
    let x := runBodyCallsTraced cx calls (⟨s₀,none⟩,[])
    x.1 = runBodyCalls cx calls ⟨s₀,none⟩ ∧
      ∀ tip, x.1.state.tip = some tip → ∀ i ≤ tip, cfg.keepsBody i tip = true →
        ∃ raw, acceptedAt cx x.2 i = some raw ∧ x.1.state.rawBlock i = some raw := by
  intro x
  refine ⟨runBodyCallsTraced_fst cx calls _,?_⟩
  obtain ⟨g,hg,hs⟩ := openOrGenesis_eq hopen
  obtain ⟨chain,h⟩ := runBodyCallsTraced_keepsPromises hU hundo
    (fun c hc raw hraw => .inl (List.mem_filterMap.2 ⟨c,hc,hraw⟩)) hsafe
    (genesis_keepsPromises hg cfg checkpoints clock (calls.filterMap BodyCall.raw?) hs)
  intro tip htip i hi hkeeps
  have hlength := MainChain.tip_eq_some_iff.1 (h.kept.sound.holds.tip.symm.trans htip)
  have hcfg : x.1.state.cfg = cfg := h.kept.inv.configEq
  have hbody : x.1.state.HasBody i := by
    refine h.held i (by omega) ?_
    rw [hlength, Nat.add_sub_cancel]
    exact hcfg.symm ▸ hkeeps
  obtain ⟨raw,hraw⟩ := Option.isSome_iff_exists.1 hbody
  refine ⟨raw,h.stored.bodies i raw hraw,?_⟩
  unfold rawBlock
  rw [hcfg, htip, Option.getD_some, hkeeps, if_neg (by simp)]
  exact hraw

def samplePruned (liteStartHeight : Nat) : Config where
  liteStartHeight := liteStartHeight
  pruneDepth := some minPruneDepth
  pruneDepth_ge := fun d hd => by cases hd; exact Nat.le_refl _
  unwindHistory_ge := Config.defaultHistory_ge
  recentWindow_ge := Config.defaultWindow_ge

def sampleBodyCalls (offers : List (Nat × RawBlock)) : List BodyCall :=
  offers.map (fun offer => .addBlock offer.1 offer.2) ++ [.pruneBodies 10000]

/-- Two blocks, then the branch that takes over from them, then a pass. -/
theorem promised_bodies_kept_sample :
    let x := runBodyCallsTraced sampleCrypto
      (sampleBodyCalls (sampleMain.take 2 ++ sampleHeavyBranch))
      (⟨sampleNode (samplePruned 0) .none 1000,none⟩,[])
    x.1.state.tip = some 3 ∧
      ∀ tip, x.1.state.tip = some tip → ∀ i ≤ tip, (samplePruned 0).keepsBody i tip = true →
        ∃ raw, acceptedAt sampleCrypto x.2 i = some raw ∧ x.1.state.rawBlock i = some raw :=
  ⟨by decide +kernel,(promised_bodies_kept (sampleNode_open (samplePruned 0) .none 1000)
    (by decide +kernel)
    (.inr ⟨by decide +kernel,.of_noZone _ Checkpoints.none_isInCheckpointZone⟩)
    (by decide +kernel)).2⟩

/-- A lite node promises genesis and deletes it. -/
theorem genesis_body_pruned :
    let x := runBodyCallsTraced sampleCrypto (sampleBodyCalls (sampleMain.take 2))
      (⟨sampleNode (samplePruned 1) .none 1000,none⟩,[])
    x.1.state.tip = some 2 ∧ (samplePruned 1).keepsBody 0 2 = true ∧
      acceptedAt sampleCrypto x.2 0 = (genesisRaws sampleCrypto).head? ∧
      (genesisRaws sampleCrypto).head?.isSome = true ∧ x.1.state.rawBlock 0 = none := by
  decide +kernel

end Wrkz
