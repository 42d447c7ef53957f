import Wrkz.Chain.Attempts
import Wrkz.Chain.Selection

/-!
The view of a branch is the main chain to be. A switch puts the blocks of a branch
to the main chain's rules, on the main chain with the branch blocks before them; what
they were put to when they arrived was that same lineage, seen through the branch. So
the records come out the same, and only a transaction can be at fault.
-/

set_option autoImplicit false

namespace Wrkz

open Library ChainState MainChain

def Attempt.isApplied : Attempt → Bool
  | .main _ held _ _ _ _ => held.isSome
  | .alternative _ _ _ _ _ _ => false

/-- A block a switch applies gets the record it was held with, or one of its
transactions is at fault. -/
def Attempt.KeepsRecord (cx : Crypto) : Attempt → Prop
  | .main s (some alt) block raw hash prev =>
    s.altBlocks.lookup hash = some alt ∧
      ((∃ outcome t, addToMain cx block raw hash prev s = .ok outcome t ∧
        t.store (.blockInfo (prev+1)) = some alt.info) ∨
      ∃ e, addToMain cx block raw hash prev s = .error e s ∧ e.InTransaction)
  | .main _ none _ _ _ _ => True
  | .alternative _ _ _ _ _ _ => True

section

variable {cx : Crypto} {s : ChainState} {block : BlockTemplate} {txBlobs : List Bytes} {hash : Hash}
  {prev d : Nat} {info : BlockInfo}

section

variable (h : s.checkAlternative cx (.mainChain prev) block txBlobs hash prev = .ok (info,d))
include h

/-- A block that passes as a branch block on top of the main chain is refused there for
its transactions only. -/
theorem refusesOnly_checkMain :
    RefusesOnly ChainError.InTransaction (s.checkMain cx block txBlobs hash prev) := by
  obtain ⟨head,fee,parent,reward,info',hhead,hfee,hreward,hwork,hinfo,_⟩ :=
    checkAlternative_ok_iff.1 h
  obtain ⟨txs,_,_,_,hparsed,_,_,_,_,_,hheadEq⟩ := checkHead_ok_iff.1 hhead
  have hzip : (head.transactions.zip txBlobs).map Prod.fst = head.transactions := by
    rw [hheadEq]
    exact List.map_fst_zip (parseTransactions_length hparsed).1.le
  -- the fees of transactions that pass are the ones that were added up without a look
  have hreward' : ∀ r, validateTransactionsLoop cx block s.access (s.txContext block prev)
      (head.transactions.zip txBlobs) 0 .new [] 0 = .ok r →
      s.checkReward (.mainChain prev) block head prev r.2 = .ok (parent,reward) := by
    intro r hloop
    obtain ⟨_,hpassed,hfee'⟩ := validateTransactionsLoop_spec hloop
    rw [hzip] at hpassed hfee'
    have htotal : alternativeFees block head.transactions 0 0 = _ :=
      alternativeFees_eq hpassed.passed 0 0
    rw [hfee] at htotal
    cases htotal
    rw [hfee']
    exact hreward
  unfold checkMain
  refine .bind (.of_ok hhead) fun head' hhead' => ?_
  cases hhead.symm.trans hhead'
  by_cases htx : head.transactions = []
  · simp only [htx, ne_eq, not_true_eq_false, if_false, if_true]
    rw [htx] at hreward'
    refine .bind refusesOnly_validateTransactionsLoop fun r hloop => ?_
    refine .bind (.of_ok (hreward' r hloop)) fun y hy => ?_
    cases (hreward' r hloop).symm.trans hy
    refine .bind (.of_ok hwork) fun _ _ => ?_
    exact .bind (.of_ok hinfo) fun _ _ => .ok _
  · simp only [htx, ne_eq, not_false_eq_true, if_false, if_true]
    refine .bind (.of_ok hwork) fun _ _ => ?_
    refine .bind refusesOnly_validateTransactionsLoop fun r hloop => ?_
    refine .bind (.of_ok (hreward' r hloop)) fun y hy => ?_
    cases (hreward' r hloop).symm.trans hy
    exact .bind (.of_ok hinfo) fun _ _ => .ok _

theorem checkMain_info_eq {a : Accepted}
    (hmain : s.checkMain cx block txBlobs hash prev = .ok a) : a.info = info := by
  have hagain := checkAlternative_of_checkMain hmain
  rw [h] at hagain
  cases hagain
  rfl

end

variable {U : Set RawBlock} {cfg : Config} {checkpoints : Checkpoints} {now : Nat}
  {alts : AltBlocks} {chain p q : MainChain cx} {x : ChainState × List Attempt}

abbrev RecordsKept (cx : Crypto) : ChainState × List Attempt → Prop :=
  Traced.Clean (fun _ => True) (Attempt.KeepsRecord cx)

theorem keeps_lift {α : Type} (m : ChainM α) :
    Traced.Keeps (RecordsKept cx) (Traced.lift m : TracedM α) :=
  .lift fun _ _ => trivial

/-- The next block of the branch, on the main chain with the branch blocks before it. -/
theorem Kept.keepsRecord (hU : UniqueIds cx U)
    (hI : Stable U (fun s (chain : MainChain cx) => Settled cfg checkpoints now s chain))
    (h : Kept U (Settled cfg checkpoints now) s p)
    {alt : AltBlock} (halt : s.altBlocks.lookup hash = some alt)
    (hparsed : BlockTemplate.fromBytes alt.blockBlob = .ok block)
    (hpassed : PassedOn cx cfg checkpoints now (infos p) alt.raw hash alt.info)
    {c : MainBlock cx} (hlast : p.getLast? = some c) (hprev : alt.prevHash = c.info.blockHash) :
    (Attempt.main s (some alt) block alt.raw hash (alt.index-1)).KeepsRecord cx ∧
      ∀ outcome t, addToMain cx block alt.raw hash (alt.index-1) s = .ok outcome t →
        ∃ b : MainBlock cx, b.info = alt.info ∧ b.info.blockHash = hash ∧
          Kept U (Settled cfg checkpoints now) t
            (p ++ [b]) ∧ t.altBlocks = s.altBlocks := by
  obtain ⟨template,pt,ha⟩ := h.sound.alts hash alt halt
  cases ha.parsed.symm.trans hparsed
  have hlen : 0 < p.length := List.length_pos_iff.2 h.sound.nonempty
  have hc : p[p.length-1]? = some c := by rw [← List.getLast?_eq_getElem?]; exact hlast
  have hindex := h.sound.altIndex_eq hU halt hc hprev
  have hprevIndex : alt.index - 1 + 1 = p.length := by omega
  have hparent : ∀ c', p.getLast? = some c' → block.previousBlockHash = c'.info.blockHash := by
    intro c' hc'
    rw [hlast] at hc'
    cases hc'
    rw [← ha.prevHash, hprev]
  have hne : infos p ≠ [] := by
    simpa [infos] using h.sound.nonempty
  -- what it passed on when it came is what the node now sees
  obtain ⟨block',d,hblock',hcheck⟩ := hpassed.check hne (h.inv.nodeAt h.sound).sees
    (Nat.le_of_eq h.inv.clock.symm)
  cases ha.parsed.symm.trans hblock'
  have hlen' : (infos p).length - 1 = alt.index - 1 := by simp [infos]; omega
  rw [hlen', show p.length - 1 = alt.index - 1 by omega] at hcheck
  rcases h.addToMain_cases hU hI ha.known ha.parsed ha.hashed hprevIndex hparent with
    ⟨e,hadd,herror⟩ | ⟨b,d',_,_,hhash,hok,hadd,hkept⟩
  · refine ⟨⟨halt,.inr ⟨e,hadd,refusesOnly_checkMain hcheck e herror⟩⟩,fun outcome t hrun => ?_⟩
    cases hadd.symm.trans hrun
  · have hinfo : b.info = alt.info := checkMain_info_eq hcheck hok
    refine ⟨⟨halt,.inl ⟨_,_,hadd,?_⟩⟩,fun outcome t hrun => ?_⟩
    · rw [hprevIndex, ← hinfo]
      exact (s.pushed_blockInfo _ _ _ _ _ _).trans (if_pos rfl)
    · cases hadd.symm.trans hrun
      exact ⟨b,hinfo,hhash,hkept,rfl⟩

namespace ChainState

variable {alt : AltBlock}

theorem applyBranchTraced_cons (rest : List Hash) (applied : Nat)
    (halt : x.1.altBlocks.lookup hash = some alt)
    (hparsed : BlockTemplate.fromBytes alt.blockBlob = .ok block) :
    applyBranchTraced cx (hash :: rest) applied x =
      match addToMainTraced cx (some alt) block alt.raw hash (alt.index-1) x with
      | .ok _ y => applyBranchTraced cx rest (applied+1) y
      | .error e y => .ok (applied,some (e,hash)) y := by
  conv_lhs => unfold applyBranchTraced
  simp only [halt, hparsed]
  rfl

end ChainState

theorem applyBranchTraced_records (hU : UniqueIds cx U)
    (hI : Stable U (fun s (chain : MainChain cx) => Settled cfg checkpoints now s chain))
    (hholds : HoldsTables s chain) (hrooted : Rooted cfg checkpoints now alts chain)
    (branch : List Hash) :
    ∀ {x : ChainState × List Attempt} {p : MainChain cx} {c : MainBlock cx} (applied : Nat),
      Kept U (Settled cfg checkpoints now) x.1 p →
      x.1.altBlocks = alts → p.getLast? = some c →
      Lineage alts chain c.info.blockHash (infos p) →
      Follows alts c.info.blockHash branch → RecordsKept cx x →
      Ensures (applyBranchTraced cx branch applied) x (fun _ => RecordsKept cx)
        (fun _ => RecordsKept cx) := by
  induction branch with
  | nil =>
    intro x p c applied _ _ _ _ _ hx
    exact .of_ok rfl hx
  | cons hash rest ih =>
    intro x p c applied h halts hlast hlineage hfollows hx
    obtain ⟨⟨alt,halt,hprev⟩,hrest⟩ := hfollows
    have halt' : x.1.altBlocks.lookup hash = some alt := by rw [halts]; exact halt
    obtain ⟨block,_,ha⟩ := h.sound.alts hash alt halt'
    -- the block passed on the lineage of its parent, which is the chain so far
    obtain ⟨infos,hparent,hpassed⟩ := hrooted.passed hash alt halt
    rw [hprev] at hparent
    cases Lineage.unique hholds hrooted.apart hlineage hparent
    obtain ⟨hkeeps,hnext⟩ := h.keepsRecord hU hI halt' ha.parsed hpassed hlast hprev
    have hlog : ∀ t, RecordsKept cx
        (t,x.2 ++ [.main x.1 (some alt) block alt.raw hash (alt.index-1)]) := by
      refine fun t => ⟨trivial,fun a hmem => ?_⟩
      rcases List.mem_append.1 hmem with hmem | hmem
      · exact hx.2 a hmem
      · rw [List.mem_singleton.1 hmem]
        exact hkeeps
    have hrun : applyBranchTraced cx (hash :: rest) applied x = _ :=
      applyBranchTraced_cons rest applied halt' ha.parsed
    cases hmain : addToMain cx block alt.raw hash (alt.index-1) x.1 with
    | error e t =>
      have htraced : addToMainTraced cx (some alt) block alt.raw hash (alt.index-1) x = .error e _ :=
        Traced.run_lift_of_error hmain _
      rw [htraced] at hrun
      exact .of_ok hrun (hlog t)
    | ok outcome t =>
      obtain ⟨b,hinfo,hhash,hkept,hsame⟩ := hnext outcome t hmain
      have htraced : addToMainTraced cx (some alt) block alt.raw hash (alt.index-1) x = .ok outcome _ :=
        Traced.run_lift_of_ok hmain _
      rw [htraced] at hrun
      refine .of_run hrun (ih (c := b) (applied+1) hkept (hsame.trans halts) (by simp) ?_ ?_ (hlog t))
      · have hstep : Lineage alts chain hash (infos p ++ [alt.info]) :=
          .alt halt (by rw [hprev]; exact hlineage)
        rw [hhash, infos_append]
        rw [← hinfo] at hstep
        exact hstep
      · rw [hhash]
        exact hrest

theorem keeps_addToMainTraced_none (block : BlockTemplate) (raw : RawBlock) (hash : Hash)
    (prev : Nat) : Traced.Keeps (RecordsKept cx)
      (addToMainTraced cx none block raw hash prev) :=
  .bind (.note fun _ _ => trivial) fun _ => keeps_lift _

theorem keeps_restoreTailTraced (tail : List UnwoundRaw) :
    Traced.Keeps (RecordsKept cx) (restoreTailTraced cx tail) := by
  induction tail with
  | nil => exact .pure _
  | cons u rest ih =>
    refine .bind (keeps_lift _) fun block => ?_
    refine .bind (keeps_lift _) fun hash => ?_
    exact .bind (keeps_addToMainTraced_none block u.raw hash _) fun _ => ih

variable (hU : UniqueIds cx U) (hT : UniqueTxIds cx U) (hfree : ReplayFree checkpoints U)
  (h : Grove cfg checkpoints now U x.1 chain) (hx : RecordsKept cx x)
include hU hT hfree h hx

theorem switchToTraced_records (hash : Hash) :
    Ensures (switchToTraced cx hash) x (fun _ => RecordsKept cx)
      (fun _ => RecordsKept cx) := by
  have hI : Stable U (Settled cfg checkpoints now) := stable_settled cfg now hT hfree
  unfold switchToTraced
  refine .of_run (run_bind_of_ok (t := x) (a := x.1) rfl) ?_
  refine ensures_read_bind hx ?_
  rintro ⟨fork,branch⟩ hbranch
  obtain ⟨y,hy,_,hfollows,_,_⟩ := branchHashes_ok hbranch
  obtain ⟨p,q,c,rfl,hplen,hlast,rfl⟩ := h.kept.sound.fork_split hy
  have hp : p ≠ [] := by
    rintro rfl
    simp at hlast
  refine ensures_read_bind hx fun tip htip => ?_
  refine ensures_read_bind hx fun _ _ => ?_
  have htip' : tip = fork + q.length := by
    have hsome := h.kept.sound.holds.tip.symm.trans (orRefuse_ok_iff.1 htip)
    have hlength := tip_eq_some_iff.1 hsome
    simp only [List.length_append] at hlength
    omega
  rw [htip', Nat.add_sub_cancel_left, ← hplen]
  unfold exchangeTailTraced
  refine ensures_read_bind hx fun unwound _ => ?_
  refine .bind ((Traced.ensures_lift (unwindAll_spec hI hp q h.kept)).mono (fun _ _ hq => hq) ?_) ?_
  · rintro e z ⟨_,hlog⟩
    exact ⟨trivial,hlog ▸ hx.2⟩
  · rintro ⟨⟩ z ⟨⟨_,hkept,hsame⟩,hlog⟩
    have hroot : Lineage x.1.altBlocks (p ++ q) c.info.blockHash (infos p) := by
      obtain ⟨p',hp'⟩ := List.getLast?_eq_some_iff.1 hlast
      rw [hp', infos_append, List.append_assoc, List.singleton_append]
      exact Lineage.of_split c q
    refine .bind (applyBranchTraced_records hU hI h.kept.sound.holds.toHoldsTables h.rooted
      branch 0 hkept hsame.altBlocks hlast hroot hfollows ⟨trivial,hlog ▸ hx.2⟩) ?_
    rintro ⟨applied,failure⟩ w hw
    cases failure with
    | none => exact (keeps_lift _).ensures hw
    | some r =>
      refine Traced.Keeps.ensures ?_ hw
      refine Traced.Keeps.bind (keeps_lift _) fun _ => ?_
      exact Traced.Keeps.bind (keeps_restoreTailTraced _) fun _ => keeps_lift _

theorem addToAlternativeTraced_records {raw : RawBlock} (hknown : raw ∈ U) {parentAlt : Option Hash}
    (hpres : Presented cx x.1 raw block hash)
    (hlocated : x.1.locateParent block.previousBlockHash = .ok (Parent.ofBranch parentAlt prev)) :
    Ensures (addToAlternativeTraced cx block raw hash prev parentAlt) x
      (fun _ => RecordsKept cx) (fun _ => RecordsKept cx) := by
  have hI : Stable U (Settled cfg checkpoints now) := stable_settled cfg now hT hfree
  unfold addToAlternativeTraced
  refine .of_run (run_bind_of_ok (t := x) (a := x.1) rfl) ?_
  refine ensures_read_bind hx ?_
  rintro ⟨fork,infos⟩ hinfos
  have hnoted : RecordsKept cx
      (x.1,x.2 ++ [.alternative x.1 (.withBranch fork infos) block raw hash prev]) := by
    refine ⟨trivial,fun a ha => ?_⟩
    rcases List.mem_append.1 ha with ha | ha
    · exact hx.2 a ha
    · rw [List.mem_singleton.1 ha]
      trivial
  refine .of_run (run_bind_of_ok (a := ⟨⟩) rfl) ?_
  refine ensures_read_bind hnoted ?_
  rintro ⟨info,d⟩ hcheck
  have hpass : PassedAlternative cx x.1 raw block hash prev parentAlt fork infos info d :=
    ⟨hpres,hlocated,hinfos,hcheck⟩
  have hgrove := h.withAlt hU hpass (h.kept.withAlt hI (h.kept.sound.newAlt_sound hknown hpass))
  refine .of_run (run_bind_of_ok (a := ⟨⟩)
    (t := (x.1.withAlt hash (newAlt block raw prev info),_)) rfl) ?_
  have hrest (status : AddStatus) : Traced.Keeps (RecordsKept cx)
      (do Traced.lift (pruneAlternativeChains (some hash))
          pure (⟨prev+1,hash,info.cumulativeDifficulty,info.alreadyGeneratedCoins,d,status⟩ :
            AddOutcome) : TracedM AddOutcome) :=
    .bind (keeps_lift _) fun _ => .pure _
  dsimp only
  split
  · refine .bind (switchToTraced_records (x := (x.1.withAlt hash (newAlt block raw prev info),_))
      hU hT hfree hgrove ⟨trivial,hnoted.2⟩ hash) ?_
    rintro ⟨⟩ y hy
    exact (hrest .alternativeAndSwitched).ensures hy
  · exact (hrest .alternative).ensures ⟨trivial,hnoted.2⟩

theorem addBlockTraced_records {raw : RawBlock} (hknown : raw ∈ U) :
    Ensures (addBlockTraced cx raw) x (fun _ => RecordsKept cx)
      (fun _ => RecordsKept cx) := by
  have hclear : Grove cfg checkpoints now U x.1.cleared chain := h.cleared hT hfree
  have hx' : RecordsKept cx (x.1.cleared,x.2) := ⟨trivial,hx.2⟩
  have hinner : Ensures (addBlockInnerTraced cx raw) (x.1.cleared,x.2)
      (fun _ => RecordsKept cx) (fun _ => RecordsKept cx) := by
    unfold addBlockInnerTraced
    refine ensures_read_bind hx' fun block hparsed => ?_
    refine ensures_read_bind hx' fun hash hhash => ?_
    refine .of_run (run_bind_of_ok (t := (x.1.cleared,x.2)) (a := x.1.cleared) rfl) ?_
    refine ensures_read_bind hx' fun _ hfresh => ?_
    have hpres : Presented cx x.1.cleared raw block hash := ⟨mapError_ok_iff.1 hparsed,
      mapError_ok_iff.1 hhash,by simpa using refuseIf_ok_iff.1 hfresh⟩
    refine ensures_read_bind hx' fun parent hparent => ?_
    cases parent with
    | mainTip prev =>
      refine Traced.Keeps.ensures ?_ hx'
      refine Traced.Keeps.bind (keeps_addToMainTraced_none block raw hash prev) fun _ => ?_
      exact Traced.Keeps.bind (keeps_lift _) fun _ => Traced.Keeps.pure _
    | mainDepth prev =>
      have hlocated : x.1.cleared.locateParent block.previousBlockHash =
          .ok (Parent.ofBranch none prev) := hparent
      exact addToAlternativeTraced_records (x := (x.1.cleared,x.2)) hU hT hfree hclear hx' hknown
        hpres hlocated
    | alternative prevHash prev =>
      have hlocated : x.1.cleared.locateParent block.previousBlockHash =
          .ok (Parent.ofBranch (some prevHash) prev) := hparent
      exact addToAlternativeTraced_records (x := (x.1.cleared,x.2)) hU hT hfree hclear hx' hknown
        hpres hlocated
  unfold addBlockTraced addBlockDetailedTraced
  refine Ensures.bind (Q := fun _ => RecordsKept cx) ?_ fun _ y hy => Ensures.pure hy
  refine Ensures.of_run (run_bind_of_ok (a := ⟨⟩) (t := (x.1.cleared,x.2)) rfl) ?_
  refine Ensures.bind hinner fun outcome y hy => Traced.Keeps.ensures ?_ hy
  exact Traced.Keeps.bind (keeps_lift _) fun _ => Traced.Keeps.bind (keeps_lift _) fun _ =>
    Traced.Keeps.pure _

end

/-- Every block a switch applies gets on the main chain the record it was held with,
or is refused for one of its transactions. -/
theorem switch_keeps_records {cx : Crypto} {cfg : Config} {checkpoints : Checkpoints}
    {clock now : Nat} {s₀ : ChainState} {calls : List Call} {raw : RawBlock}
    (hkeeps : cfg.KeepsBodies) (hzone : ∀ i, checkpoints.isInCheckpointZone i = false)
    (hopen : openOrGenesis cx cfg checkpoints clock = .ok ⟨⟩ s₀)
    (hU : UniqueIds cx (blocksOf cx (raw :: calls.filterMap Call.raw?)))
    (hT : UniqueTxIds cx (blocksOf cx (raw :: calls.filterMap Call.raw?)))
    (hclock : (clock :: (calls.map Call.now ++ [now])).Pairwise (· ≤ ·)) :
    let s := (runCalls cx calls s₀).atClock now
    let r := addBlockTraced cx raw (s,[])
    Traced.forget r = addBlock cx raw s ∧
      ∀ a ∈ (finalState r).2, a.KeepsRecord cx := by
  intro s r
  refine ⟨addBlockTraced_follows raw (s,[]),?_⟩
  obtain ⟨g,hg,hs⟩ := openOrGenesis_eq hopen
  rw [← List.cons_append, List.pairwise_append] at hclock
  have hfree : ReplayFree checkpoints (blocksOf cx (raw :: calls.filterMap Call.raw?)) :=
    .of_noZone _ hzone
  have hknown : ∀ c ∈ calls, ∀ r, c.raw? = some r → r ∈ raw :: calls.filterMap Call.raw? :=
    fun c hc r hr => List.mem_cons_of_mem _ (List.mem_filterMap.2 ⟨c,hc,hr⟩)
  obtain ⟨chain,last,hlast,hgrove⟩ := runCalls_grove hU hT hfree
    (fun c hc r hr => .inl (hknown c hc r hr)) hclock.1
    (runCalls_canUndoSwitch hkeeps hzone hopen hU hT hknown)
    (genesis_grove hg cfg checkpoints clock (raw :: calls.filterMap Call.raw?) hs)
  have hnow := hgrove.atClock (hclock.2.2 last hlast now (by simp))
  have hrecords := addBlockTraced_records (x := (s,[])) hU hT hfree hnow ⟨trivial,by simp⟩
    (.inl List.mem_cons_self)
  exact hrecords.finalState.2

/-- The branch that stands still takes over: three of its blocks go on the main chain. -/
theorem switch_keeps_records_sample :
    let s := (runCalls sampleCrypto sampleBeforeTakeover (sampleNode defaultConfig .none 1000)).atClock
      1000
    let r := addBlockTraced sampleCrypto sampleHeavy (s,[])
    ((finalState r).2.map Attempt.isApplied).count true = 3 ∧
      ∀ a ∈ (finalState r).2, a.KeepsRecord sampleCrypto := by
  intro s r
  refine ⟨by decide +kernel,?_⟩
  exact (switch_keeps_records ⟨rfl,rfl,rfl⟩ Checkpoints.none_isInCheckpointZone
    (sampleNode_open defaultConfig .none 1000) (by decide +kernel) (by decide +kernel)
    (by decide +kernel)).2

end Wrkz
