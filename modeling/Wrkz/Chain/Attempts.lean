import Wrkz.Library.Traced
import Wrkz.Chain.Genesis

/-!
Which blocks a call of `add_block` puts to the rules, and in which state: the block
itself, at the tip or on its branch; when it makes its branch heavier, the blocks of
the branch as they go on the main chain; and when one of them is refused, the old
tail as it goes back.
-/

set_option autoImplicit false

namespace Wrkz

open Library BlockTemplate

/-- A block put to the rules: of the main chain, with the alternative block it was
until then if a switch applies it, or of a branch. -/
inductive Attempt where
  | main (s : ChainState) (held : Option AltBlock) (block : BlockTemplate) (raw : RawBlock)
      (hash : Hash) (previousIndex : Nat)
  | alternative (s : ChainState) (view : ChainView) (block : BlockTemplate) (raw : RawBlock)
      (hash : Hash) (previousIndex : Nat)

namespace Attempt

def block : Attempt → BlockTemplate
  | .main _ _ block _ _ _ => block
  | .alternative _ _ block _ _ _ => block

def raw : Attempt → RawBlock
  | .main _ _ _ raw _ _ => raw
  | .alternative _ _ _ raw _ _ => raw

/-- The block is one of `U`, as its bytes read. -/
def Given (U : Set RawBlock) (a : Attempt) : Prop :=
  a.raw ∈ U ∧ fromBytes a.raw.block = .ok a.block

end Attempt

abbrev TracedM := Traced ChainError ChainState Attempt

namespace ChainState

/-! Each program with its log. -/

def addToMainTraced (cx : Crypto) (held : Option AltBlock) (block : BlockTemplate) (raw : RawBlock)
    (hash : Hash) (previousIndex : Nat) : TracedM AddOutcome := do
  Traced.note fun s => .main s held block raw hash previousIndex
  Traced.lift (addToMain cx block raw hash previousIndex)

def applyBranchTraced (cx : Crypto) :
    List Hash → Nat → TracedM (Nat × Option (ChainError × Hash))
  | [], applied => pure (applied,none)
  | h :: rest, applied => fun x =>
    match x.1.altBlocks.lookup h with
    | none => .error (.corrupt "a branch block is not held") x
    | some alt =>
      match fromBytes alt.blockBlob with
      | .error _ => .error (.rule (.deserializationFailed "alternative block blob")) x
      | .ok block =>
        match addToMainTraced cx (some alt) block ⟨alt.blockBlob,alt.txBlobs⟩ h (alt.index-1) x with
        | .ok _ y => applyBranchTraced cx rest (applied+1) y
        | .error e y => .ok (applied,some (e,h)) y

def restoreTailTraced (cx : Crypto) : List UnwoundRaw → TracedM PUnit.{1}
  | [] => pure ⟨⟩
  | u :: rest => do
    let block ← Traced.lift (liftExcept ((fromBytes u.raw.block).mapError
      (fun _ => storedUnparsed u.index)))
    let h ← Traced.lift (liftExcept ((block.hash cx).mapError
      (fun _ => ChainError.corrupt "stored block has no hash")))
    let _ ← addToMainTraced cx none block u.raw h (u.index-1)
    restoreTailTraced cx rest

/-- A block that failed a rule is forgotten with everything built on it. -/
def dropRefused (e : ChainError) (failedAt : Hash) : ChainM PUnit.{1} :=
  match e with
  | .rule _ => modify fun s => { s with altBlocks := s.altBlocks.dropSubtree failedAt }
  | .corrupt _ => pure ⟨⟩

def rollBackTraced (cx : Crypto) (forkIndex applied : Nat) (unwound : List UnwoundRaw)
    (e : ChainError) (failedAt : Hash) : TracedM PUnit.{1} := do
  Traced.lift (unwindAll cx (List.range' (forkIndex+1) applied).reverse)
  restoreTailTraced cx unwound.reverse
  Traced.lift (do
    dropRefused e failedAt
    throw e)

def exchangeTailTraced (cx : Crypto) (s : ChainState) (forkIndex : Nat) (indexes : List Nat)
    (branch : List Hash) : TracedM PUnit.{1} := do
  let unwound ← Traced.lift (liftExcept (s.collectUnwound indexes))
  Traced.lift (unwindAll cx indexes)
  let (applied,failure) ← applyBranchTraced cx branch 0
  match failure with
  | some (e,failedAt) => rollBackTraced cx forkIndex applied unwound e failedAt
  | none => Traced.lift (do
    modify fun s => { s with altBlocks := s.altBlocks.dropAll branch }
    keepTail unwound)

def switchToTraced (cx : Crypto) (hash : Hash) : TracedM PUnit.{1} := do
  let s ← Traced.lift (get : ChainM ChainState)
  let (forkIndex,branch) ← Traced.lift (liftExcept (s.branchHashes hash))
  let tip ← Traced.lift
    (liftExcept (orRefuse s.tip (.corrupt "switching chains on an empty state")))
  Traced.lift (liftExcept (match s.cfg.bodyFloor tip with
    | none => pure ⟨⟩
    | some floor => refuseIf (forkIndex + 1 < floor)
        (.rule (.reorganisationBelowBodyFloor (forkIndex+1) floor))))
  exchangeTailTraced cx s forkIndex (List.range' (forkIndex+1) (tip - forkIndex)).reverse branch

def addToAlternativeTraced (cx : Crypto) (block : BlockTemplate) (raw : RawBlock) (hash : Hash)
    (previousIndex : Nat) (parentAlt : Option Hash) : TracedM AddOutcome := do
  let s ← Traced.lift (get : ChainM ChainState)
  let (forkIndex,infos) ← Traced.lift (liftExcept (s.branchInfos parentAlt previousIndex))
  Traced.note fun s => .alternative s (.withBranch forkIndex infos) block raw hash previousIndex
  let (info,difficulty) ← Traced.lift (liftExcept (s.checkAlternative cx
    (.withBranch forkIndex infos) block raw.transactions hash previousIndex))
  let alt : AltBlock :=
    ⟨previousIndex+1,block.previousBlockHash,info,raw.block,raw.transactions⟩
  Traced.lift (set { s with altBlocks := s.altBlocks.insert hash alt } : ChainM PUnit)
  let mainCumulative := (s.tipInfo.map BlockInfo.cumulativeDifficulty).getD 0
  let status ← if mainCumulative < info.cumulativeDifficulty then do
      switchToTraced cx hash
      pure AddStatus.alternativeAndSwitched
    else pure AddStatus.alternative
  Traced.lift (pruneAlternativeChains (some hash))
  pure ⟨previousIndex+1,hash,info.cumulativeDifficulty,info.alreadyGeneratedCoins,difficulty,status⟩

def addBlockInnerTraced (cx : Crypto) (raw : RawBlock) : TracedM AddOutcome := do
  let block ← Traced.lift (liftExcept ((fromBytes raw.block).mapError
    (fun _ => ChainError.rule (.deserializationFailed "block blob"))))
  let hash ← Traced.lift (liftExcept ((block.hash cx).mapError
    (fun _ => ChainError.rule (.deserializationFailed "block hash"))))
  let s ← Traced.lift (get : ChainM ChainState)
  Traced.lift (liftExcept (refuseIf (s.hasBlock hash = true) (ChainError.rule .alreadyExists)))
  let parent ← Traced.lift (liftExcept (s.locateParent block.previousBlockHash))
  match parent with
  | .mainTip previousIndex => do
    let outcome ← addToMainTraced cx none block raw hash previousIndex
    Traced.lift (pruneAlternativeChains none)
    pure outcome
  | .mainDepth previousIndex => addToAlternativeTraced cx block raw hash previousIndex none
  | .alternative prevHash previousIndex =>
    addToAlternativeTraced cx block raw hash previousIndex (some prevHash)

def addBlockDetailedTraced (cx : Crypto) (raw : RawBlock) : TracedM AddReport := do
  Traced.lift (modify fun s => { s with unwound := [] } : ChainM PUnit)
  let outcome ← addBlockInnerTraced cx raw
  let s ← Traced.lift (get : ChainM ChainState)
  Traced.lift (set { s with unwound := [] } : ChainM PUnit)
  pure ⟨outcome,s.unwound⟩

def addBlockTraced (cx : Crypto) (raw : RawBlock) : TracedM AddOutcome := do
  let report ← addBlockDetailedTraced cx raw
  pure report.outcome

/-! Without their logs they run as the programs they are made from. -/

variable {cx : Crypto}

theorem addToMainTraced_follows (held : Option AltBlock) (block : BlockTemplate) (raw : RawBlock)
    (hash : Hash) (previousIndex : Nat) :
    Traced.Follows (addToMainTraced cx held block raw hash previousIndex)
      (addToMain cx block raw hash previousIndex) :=
  .note_bind (.lift _)

theorem applyBranchTraced_follows (branch : List Hash) :
    ∀ applied, Traced.Follows (applyBranchTraced cx branch applied) (applyBranch cx branch applied) := by
  induction branch with
  | nil => exact fun applied => .pure _
  | cons h rest ih =>
    intro applied x
    unfold applyBranchTraced applyBranch
    cases x.1.altBlocks.lookup h with
    | none => rfl
    | some alt =>
      dsimp only
      cases fromBytes alt.blockBlob with
      | error e => rfl
      | ok block =>
        dsimp only
        rw [← addToMainTraced_follows (some alt) block ⟨alt.blockBlob,alt.txBlobs⟩ h (alt.index-1) x]
        cases addToMainTraced cx (some alt) block ⟨alt.blockBlob,alt.txBlobs⟩ h (alt.index-1) x with
        | ok outcome y => exact ih (applied+1) y
        | error e y => rfl

theorem restoreTailTraced_follows (tail : List UnwoundRaw) :
    Traced.Follows (restoreTailTraced cx tail) (restoreTail cx tail) := by
  induction tail with
  | nil => exact .pure _
  | cons u rest ih =>
    refine .bind (.lift _) fun block => .bind (.lift _) fun h => ?_
    exact .bind (addToMainTraced_follows none block u.raw h _) fun _ => ih

theorem rollBack_eq (forkIndex applied : Nat) (unwound : List UnwoundRaw) (e : ChainError)
    (failedAt : Hash) : rollBack cx forkIndex applied unwound e failedAt = (do
      unwindAll cx (List.range' (forkIndex+1) applied).reverse
      restoreTail cx unwound.reverse
      dropRefused e failedAt
      throw e) := by
  unfold rollBack dropRefused
  cases e <;> rfl

theorem rollBackTraced_follows (forkIndex applied : Nat) (unwound : List UnwoundRaw)
    (e : ChainError) (failedAt : Hash) :
    Traced.Follows (rollBackTraced cx forkIndex applied unwound e failedAt)
      (rollBack cx forkIndex applied unwound e failedAt) := by
  rw [rollBack_eq]
  refine .bind (.lift _) fun _ => ?_
  exact .bind (restoreTailTraced_follows _) fun _ => .lift _

theorem exchangeTailTraced_follows (s : ChainState) (forkIndex : Nat) (indexes : List Nat)
    (branch : List Hash) : Traced.Follows (exchangeTailTraced cx s forkIndex indexes branch)
      (exchangeTail cx s forkIndex indexes branch) := by
  refine .bind (.lift _) fun unwound => .bind (.lift _) fun _ => ?_
  refine .bind (applyBranchTraced_follows branch 0) ?_
  rintro ⟨applied,failure⟩
  cases failure with
  | none => exact .lift _
  | some r => exact rollBackTraced_follows forkIndex applied unwound r.1 r.2

theorem switchToTraced_follows (hash : Hash) :
    Traced.Follows (switchToTraced cx hash) (switchTo cx hash) := by
  refine .bind (.lift _) fun s => .bind (.lift _) ?_
  rintro ⟨forkIndex,branch⟩
  refine .bind (.lift _) fun tip => .bind (.lift _) fun _ => ?_
  exact exchangeTailTraced_follows s forkIndex _ branch

theorem addToAlternativeTraced_follows (block : BlockTemplate) (raw : RawBlock) (hash : Hash)
    (previousIndex : Nat) (parentAlt : Option Hash) :
    Traced.Follows (addToAlternativeTraced cx block raw hash previousIndex parentAlt)
      (addToAlternative cx block raw hash previousIndex parentAlt) := by
  refine .bind (.lift _) fun s => .bind (.lift _) ?_
  rintro ⟨forkIndex,infos⟩
  refine .note_bind (.bind (.lift _) ?_)
  rintro ⟨info,difficulty⟩
  refine .bind (.lift _) fun _ => .ite ?_ ?_
  · refine .bind (switchToTraced_follows hash) fun _ => .bind (.pure _) ?_
    exact fun status => .bind (.lift _) fun _ => .pure _
  · refine .bind (.pure _) ?_
    exact fun status => .bind (.lift _) fun _ => .pure _

theorem addBlockInnerTraced_follows (raw : RawBlock) :
    Traced.Follows (addBlockInnerTraced cx raw) (addBlockInner cx raw) := by
  refine .bind (.lift _) fun block => .bind (.lift _) fun hash => ?_
  refine .bind (.lift _) fun s => .bind (.lift _) fun _ => ?_
  refine .bind (.lift _) fun parent => ?_
  cases parent with
  | mainTip previousIndex =>
    exact .bind (addToMainTraced_follows none block raw hash previousIndex) fun _ =>
      .bind (.lift _) fun _ => .pure _
  | mainDepth previousIndex =>
    exact addToAlternativeTraced_follows block raw hash previousIndex none
  | alternative prevHash previousIndex =>
    exact addToAlternativeTraced_follows block raw hash previousIndex (some prevHash)

theorem addBlockTraced_follows (raw : RawBlock) :
    Traced.Follows (addBlockTraced cx raw) (addBlock cx raw) := by
  refine .bind (.bind (.lift _) fun _ => ?_) fun report => .pure _
  refine .bind (addBlockInnerTraced_follows raw) fun outcome => ?_
  exact .bind (.lift _) fun s => .bind (.lift _) fun _ => .pure _

/-! Every block put to the rules is one the node was given. -/

/-- The alternative blocks and the stored bodies are blocks of `U`. -/
structure KnowsBlocks (U : Set RawBlock) (s : ChainState) : Prop where
  alts : ∀ h alt, s.altBlocks.lookup h = some alt → (⟨alt.blockBlob,alt.txBlobs⟩ : RawBlock) ∈ U
  bodies : ∀ i raw, s.store (.rawBlock i) = some raw → raw ∈ U

section

variable {U : Set RawBlock} {s t : ChainState} {raw : RawBlock}

theorem KnowsBlocks.congr (h : KnowsBlocks U s) (hstore : t.store = s.store)
    (halts : t.altBlocks.SubsetOf s.altBlocks) : KnowsBlocks U t where
  alts x alt hx := h.alts x alt (halts x alt hx)
  bodies i r hr := h.bodies i r (hstore ▸ hr)

theorem KnowsBlocks.of_bodies (h : KnowsBlocks U s) (halts : t.altBlocks = s.altBlocks)
    (hbodies : ∀ i r, t.store (.rawBlock i) = some r → r ∈ U) : KnowsBlocks U t where
  alts x alt hx := h.alts x alt (halts ▸ hx)
  bodies := hbodies

theorem KnowsBlocks.insert (h : KnowsBlocks U s) {hash : Hash} {alt : AltBlock}
    (halt : (⟨alt.blockBlob,alt.txBlobs⟩ : RawBlock) ∈ U) (unwound : List UnwoundBlock) :
    KnowsBlocks U { s with altBlocks := s.altBlocks.insert hash alt, unwound := unwound } := by
  refine ⟨fun x alt' hx => ?_,h.bodies⟩
  dsimp only at hx
  by_cases hxh : x = hash
  · subst hxh
    rw [AList.lookup_insert] at hx
    cases hx
    exact halt
  · rw [AList.lookup_insert_ne hxh] at hx
    exact h.alts x alt' hx

theorem keeps_liftExcept {α : Type} (x : Except ChainError α) :
    Traced.Keeps (KnowsBlocks U) (liftExcept x) := by
  intro s h
  cases x <;> exact h

theorem lift_liftExcept_ok {α : Type} {r : Except ChainError α} {x y : ChainState × List Attempt}
    {a : α} (h : (Traced.lift (liftExcept r) : TracedM α) x = .ok a y) : r = .ok a := by
  cases r with
  | error e => cases h
  | ok b =>
    cases h
    rfl

theorem keeps_updateBlockMedianSize : Traced.Keeps (KnowsBlocks U) updateBlockMedianSize := by
  intro s h
  unfold updateBlockMedianSize
  split
  · exact h.congr rfl (.refl _)
  · exact h

theorem keeps_addToMain (block : BlockTemplate) (hraw : raw ∈ U) (hash : Hash)
    (previousIndex : Nat) : Traced.Keeps (KnowsBlocks U) (addToMain cx block raw hash previousIndex) := by
  have hpush (a : Accepted) : Traced.Keeps (KnowsBlocks U)
      (pushBlock cx (previousIndex+1) block raw a) := by
    intro s h
    unfold pushBlock
    split
    · exact h
    · rename_i coinbaseHash _
      refine keeps_updateBlockMedianSize _ (h.of_bodies (by rfl) fun i r hr => ?_)
      rcases s.pushed_rawBlock_some (previousIndex+1) block raw coinbaseHash a hr with
        ⟨_,rfl⟩ | hold
      · exact hraw
      · exact h.bodies i r hold
  refine .bind (fun _ h => h) fun s => ?_
  refine .bind (keeps_liftExcept _) fun a => ?_
  exact .bind (hpush a) fun _ => .pure _

structure DropsBodies (s t : ChainState) : Prop where
  cfg : t.cfg = s.cfg
  bodies : ∀ i raw, t.store (.rawBlock i) = some raw → s.store (.rawBlock i) = some raw

theorem DropsBodies.of_store (hstore : t.store = s.store) (hcfg : t.cfg = s.cfg) :
    DropsBodies s t := ⟨hcfg,fun _ _ h => hstore ▸ h⟩

theorem DropsBodies.refl (s : ChainState) : DropsBodies s s := .of_store rfl rfl

theorem DropsBodies.trans {u : ChainState} (h : DropsBodies s t) (h' : DropsBodies t u) :
    DropsBodies s u := ⟨h'.cfg.trans h.cfg,fun i raw hr => h.bodies i raw (h'.bodies i raw hr)⟩

theorem drops_reloadRecent : StepsBy (fun s t => DropsBodies s t ∧ t.altBlocks = s.altBlocks)
    reloadRecent := by
  intro s
  unfold reloadRecent
  split
  · exact ⟨.of_store rfl rfl,rfl⟩
  · dsimp only
    split
    · exact ⟨.of_store rfl rfl,rfl⟩
    · exact ⟨.refl s,rfl⟩

theorem drops_updateBlockMedianSize :
    StepsBy (fun s t => DropsBodies s t ∧ t.altBlocks = s.altBlocks) updateBlockMedianSize := by
  intro s
  unfold updateBlockMedianSize
  split
  · exact ⟨.of_store rfl rfl,rfl⟩
  · exact ⟨.refl s,rfl⟩

theorem drops_unwindBlock (index : Nat) :
    StepsBy (fun s t => DropsBodies s t ∧ t.altBlocks = s.altBlocks) (unwindBlock cx index) := by
  have htrans : ∀ s t u : ChainState, DropsBodies s t ∧ t.altBlocks = s.altBlocks →
      DropsBodies t u ∧ u.altBlocks = t.altBlocks → DropsBodies s u ∧ u.altBlocks = s.altBlocks :=
    fun _ _ _ h h' => ⟨h.1.trans h'.1,h'.2.trans h.2⟩
  intro s
  unfold unwindBlock
  rw [run_get_bind]
  cases htip : refuseIf (s.tip ≠ some index) (ChainError.corrupt s!"unwind of {index} but it is not the tip") with
  | error e => exact ⟨.refl s,rfl⟩
  | ok u =>
    rw [run_bind_of_ok (liftExcept_ok u s)]
    cases hops : s.unwindOps cx index {} with
    | error e => exact ⟨.refl s,rfl⟩
    | ok r =>
      obtain ⟨ops,scratch⟩ := r
      rw [run_bind_of_ok (liftExcept_ok (ops,scratch) s)]
      refine htrans _ { s with
        store := s.store.writeBatch (ops ++ scratch.finish ++
          [(⟨.metaTip, if index = 0 then none else some (index-1)⟩ : WriteOp)])
        tip := if index = 0 then none else some (index-1) } _ ⟨⟨rfl,fun i b hb => ?_⟩,rfl⟩
        (StepsBy.bind htrans drops_reloadRecent (fun _ => drops_updateBlockMedianSize) _)
      dsimp only at hb
      rcases KeyValue.writeBatch_eq_or_mem s.store (ops ++ scratch.finish ++
        [(⟨.metaTip, if index = 0 then none else some (index-1)⟩ : WriteOp)]) (.rawBlock i) with
        heq | hmem
      · exact heq ▸ hb
      · rw [hb] at hmem
        simp only [UnwindScratch.finish, List.mem_append, List.mem_map, List.mem_singleton] at hmem
        rcases hmem with (hmem | (⟨e,_,he⟩ | ⟨e,_,he⟩) | ⟨e,_,he⟩) | he
        · cases (unwindOps_deletes hops _ hmem).2
        all_goals cases he

theorem keeps_unwindBlock (index : Nat) : Traced.Keeps (KnowsBlocks U) (unwindBlock cx index) := by
  intro s h
  have hstep : DropsBodies s (finalState (unwindBlock cx index s)) ∧ _ := drops_unwindBlock index s
  obtain ⟨hdrop,halts⟩ := hstep
  exact h.of_bodies halts fun i raw hr => h.bodies i raw (hdrop.bodies i raw hr)

/-- A step beside the store, after which no block is known but those of `U`. -/
structure Beside (U : Set RawBlock) (s t : ChainState) : Prop where
  store : t.store = s.store
  cfg : t.cfg = s.cfg
  knows : KnowsBlocks U s → KnowsBlocks U t

theorem Beside.of_alts (hstore : t.store = s.store) (hcfg : t.cfg = s.cfg)
    (halts : t.altBlocks.SubsetOf s.altBlocks) : Beside U s t :=
  ⟨hstore,hcfg,fun h => h.congr hstore halts⟩

theorem Beside.refl (s : ChainState) : Beside U s s := ⟨rfl,rfl,id⟩

theorem Beside.trans (s t u : ChainState) (h : Beside U s t) (h' : Beside U t u) : Beside U s u :=
  ⟨h'.store.trans h.store,h'.cfg.trans h.cfg,fun hs => h'.knows (h.knows hs)⟩

theorem beside_liftExcept {α : Type} (r : Except ChainError α) :
    StepsBy (Beside U) (liftExcept r) := by
  intro s
  cases r <;> exact .refl s

theorem beside_keepTail {tail : List UnwoundRaw} (htail : ∀ u ∈ tail, u.raw ∈ U) :
    StepsBy (Beside U) (keepTail tail) := by
  induction tail with
  | nil => exact .pure Beside.refl _
  | cons u rest ih =>
    refine .bind Beside.trans (beside_liftExcept _) fun block => ?_
    refine .bind Beside.trans (.modify fun s => ⟨rfl,rfl,fun h => h.insert ?_ _⟩)
      fun _ => ih fun v hv => htail v (List.mem_cons_of_mem _ hv)
    exact htail u List.mem_cons_self

theorem beside_pruneAlternativeChains (exclude : Option Hash) :
    StepsBy (Beside U) (pruneAlternativeChains exclude) :=
  .modify fun s => by
    split
    · exact .refl s
    · exact .of_alts rfl rfl (.prune _ _ _)

theorem beside_dropRefused (e : ChainError) (failedAt : Hash) :
    StepsBy (Beside U) (dropRefused e failedAt) := by
  cases e with
  | rule r => exact .modify fun s => .of_alts rfl rfl (.dropAll _ _)
  | corrupt what => exact .pure Beside.refl _

theorem collectUnwound_known (h : KnowsBlocks U s) {indexes : List Nat} {unwound : List UnwoundRaw}
    (hrun : s.collectUnwound indexes = .ok unwound) : ∀ u ∈ unwound, u.raw ∈ U := by
  induction indexes generalizing unwound with
  | nil =>
    cases hrun
    simp
  | cons index rest ih =>
    simp only [collectUnwound, bind_ok_iff, orRefuse_ok_iff, pure_ok_iff] at hrun
    obtain ⟨info,_,r,hr,rest',hrest,rfl⟩ := hrun
    intro u hu
    cases hu with
    | head =>
      unfold rawBlock at hr
      split at hr
      · cases hr
      · exact h.bodies index r hr
    | tail _ hu => exact ih hrest u hu

theorem keeps_addToMainTraced {held : Option AltBlock} {block : BlockTemplate}
    (hparsed : fromBytes raw.block = .ok block) (hraw : raw ∈ U) (hash : Hash)
    (previousIndex : Nat) : Traced.Keeps (Traced.Clean (KnowsBlocks U) (Attempt.Given U))
      (addToMainTraced cx held block raw hash previousIndex) :=
  .bind (.note fun _ _ => ⟨hraw,hparsed⟩) fun _ =>
    .lift (keeps_addToMain block hraw hash previousIndex)

variable {K : ChainState × List Attempt → Prop} {x : ChainState × List Attempt}

theorem ensures_read_bind {α β : Type} {r : Except ChainError α} {f : α → TracedM β} (hx : K x)
    (hf : ∀ a, r = .ok a → Ensures (f a) x (fun _ => K) (fun _ => K)) :
    Ensures (Traced.lift (liftExcept r) >>= f) x (fun _ => K) (fun _ => K) := by
  cases hr : r with
  | error e => exact .of_error (run_bind_of_error (t := x) rfl) hx
  | ok a => exact .of_run (run_bind_of_ok (t := x) rfl) (hf a hr)

/-- `K` holds through the parts of an `add_block` whose blocks are those of `U`: a block
put to the main chain, a block taken off it, a step beside the store, and a branch block
put to the rules. -/
structure Carried (cx : Crypto) (U : Set RawBlock) (K : ChainState × List Attempt → Prop) :
    Prop where
  knows : ∀ x, K x → KnowsBlocks U x.1
  main : ∀ held block raw hash prev, raw ∈ U → fromBytes raw.block = .ok block →
    Traced.Keeps K (addToMainTraced cx held block raw hash prev)
  unwind : ∀ index log, Traced.Keeps (fun s => K (s,log)) (unwindBlock cx index)
  beside : ∀ s t log, Beside U s t → K (s,log) → K (t,log)
  note : ∀ s view block raw hash prev log, raw ∈ U → fromBytes raw.block = .ok block →
    K (s,log) → K (s,log ++ [.alternative s view block raw hash prev])

namespace Carried

variable (hK : Carried cx U K)
include hK

theorem lift {α : Type} {m : ChainM α} (hm : StepsBy (Beside U) m) :
    Traced.Keeps K (Traced.lift m : TracedM α) :=
  .lift_of fun log s hs => hK.beside s _ log (hm s) hs

theorem read {α : Type} (r : Except ChainError α) :
    Traced.Keeps K (Traced.lift (liftExcept r) : TracedM α) :=
  hK.lift (beside_liftExcept r)

/-- The state read is one that `K` holds of. -/
theorem get_bind {α : Type} {f : ChainState → TracedM α}
    (hf : ∀ s, KnowsBlocks U s → Traced.Keeps K (f s)) :
    Traced.Keeps K ((Traced.lift get : TracedM ChainState) >>= f) :=
  fun x hx => hf x.1 (hK.knows x hx) x hx

theorem unwindAll (indexes : List Nat) :
    Traced.Keeps K (Traced.lift (unwindAll cx indexes) : TracedM PUnit) := by
  refine .lift_of fun log => ?_
  induction indexes with
  | nil => exact .pure _
  | cons index indexes ih => exact .bind (hK.unwind index log) fun _ => ih

theorem applyBranchTraced (branch : List Hash) (applied : Nat) :
    Traced.Keeps K (applyBranchTraced cx branch applied) := by
  induction branch generalizing applied with
  | nil => exact .pure _
  | cons h rest ih =>
    intro x hx
    unfold ChainState.applyBranchTraced
    cases halt : x.1.altBlocks.lookup h with
    | none => exact hx
    | some alt =>
      dsimp only
      cases hparsed : fromBytes alt.blockBlob with
      | error e => exact hx
      | ok block =>
        dsimp only
        have hadd := hK.main (some alt) block ⟨alt.blockBlob,alt.txBlobs⟩ h (alt.index-1)
          ((hK.knows x hx).alts h alt halt) hparsed x hx
        cases hrun : addToMainTraced cx (some alt) block ⟨alt.blockBlob,alt.txBlobs⟩ h
            (alt.index-1) x with
        | ok outcome y =>
          rw [hrun] at hadd
          exact ih (applied+1) y hadd
        | error e y =>
          rw [hrun] at hadd
          exact hadd

theorem restoreTailTraced {tail : List UnwoundRaw}
    (htail : ∀ u ∈ tail, u.raw ∈ U) : Traced.Keeps K (restoreTailTraced cx tail) := by
  induction tail with
  | nil => exact .pure _
  | cons u rest ih =>
    refine .bind_of (Q := fun block => fromBytes u.raw.block = .ok block) (hK.read _) ?_
      fun block hparsed => ?_
    · intro x block y _ hrun
      exact mapError_ok_iff.1 (lift_liftExcept_ok hrun)
    · refine .bind (hK.read _) fun h => ?_
      refine .bind (hK.main none block u.raw h _ (htail u List.mem_cons_self) hparsed) ?_
      exact fun _ => ih fun v hv => htail v (List.mem_cons_of_mem _ hv)

theorem exchangeTailTraced (h : KnowsBlocks U s) (forkIndex : Nat) (indexes : List Nat)
    (branch : List Hash) : Traced.Keeps K (exchangeTailTraced cx s forkIndex indexes branch) := by
  refine .bind_of (Q := fun unwound => ∀ u ∈ unwound, u.raw ∈ U) (hK.read _) ?_
    fun unwound hunwound => ?_
  · intro x unwound y _ hrun
    exact collectUnwound_known h (lift_liftExcept_ok hrun)
  · refine .bind (hK.unwindAll indexes) fun _ => ?_
    refine .bind (hK.applyBranchTraced branch 0) ?_
    rintro ⟨applied,failure⟩
    cases failure with
    | some r =>
      refine .bind (hK.unwindAll _) fun _ => ?_
      refine .bind (hK.restoreTailTraced fun u hu => hunwound u (List.mem_reverse.1 hu)) fun _ => ?_
      exact hK.lift (.bind Beside.trans (beside_dropRefused r.1 r.2) fun _ => .throw Beside.refl _)
    | none =>
      refine hK.lift (.bind Beside.trans ?_ fun _ => beside_keepTail hunwound)
      exact .modify fun t => .of_alts rfl rfl (.dropAll _ _)

theorem switchToTraced (hash : Hash) : Traced.Keeps K (switchToTraced cx hash) := by
  refine hK.get_bind fun s hs => ?_
  refine .bind (hK.read _) ?_
  rintro ⟨forkIndex,branch⟩
  refine .bind (hK.read _) fun tip => ?_
  exact .bind (hK.read _) fun _ => hK.exchangeTailTraced hs forkIndex _ branch

theorem addToAlternativeTraced {block : BlockTemplate} (hraw : raw ∈ U)
    (hparsed : fromBytes raw.block = .ok block) (hash : Hash) (prev : Nat)
    (parentAlt : Option Hash) :
    Traced.Keeps K (addToAlternativeTraced cx block raw hash prev parentAlt) := by
  intro x hx
  refine Ensures.finalState (P := K) ?_
  unfold ChainState.addToAlternativeTraced
  refine Ensures.of_run (run_bind_of_ok (t := x) (a := x.1) rfl) ?_
  refine ensures_read_bind hx ?_
  rintro ⟨fork,infos⟩ _
  have hnoted := hK.note x.1 (.withBranch fork infos) block raw hash prev x.2 hraw hparsed hx
  refine .of_run (run_bind_of_ok (a := ⟨⟩) rfl) ?_
  refine ensures_read_bind hnoted ?_
  rintro ⟨info,d⟩ _
  have hrest (status : AddStatus) : Traced.Keeps K
      (do Traced.lift (pruneAlternativeChains (some hash))
          pure (⟨prev+1,hash,info.cumulativeDifficulty,info.alreadyGeneratedCoins,d,status⟩ :
            AddOutcome) : TracedM AddOutcome) :=
    .bind (hK.lift (beside_pruneAlternativeChains _)) fun _ => .pure _
  refine .of_run (run_bind_of_ok (a := ⟨⟩) rfl) ?_
  let alt : AltBlock := ⟨prev+1,block.previousBlockHash,info,raw.block,raw.transactions⟩
  have hheld := hK.beside x.1 { x.1 with altBlocks := x.1.altBlocks.insert hash alt } _
    ⟨rfl,rfl,fun h => h.insert hraw x.1.unwound⟩ hnoted
  dsimp only
  split
  · refine .bind ((hK.switchToTraced hash).ensures hheld) ?_
    rintro ⟨⟩ y hy
    exact (hrest .alternativeAndSwitched).ensures hy
  · exact (hrest .alternative).ensures hheld

theorem addBlockInnerTraced (hraw : raw ∈ U) : Traced.Keeps K (addBlockInnerTraced cx raw) := by
  refine .bind_of (Q := fun block => fromBytes raw.block = .ok block) (hK.read _) ?_
    fun block hparsed => ?_
  · intro x block y _ hrun
    exact mapError_ok_iff.1 (lift_liftExcept_ok hrun)
  · refine .bind (hK.read _) fun hash => hK.get_bind fun s _ => ?_
    refine .bind (hK.read _) fun _ => .bind (hK.read _) fun parent => ?_
    cases parent with
    | mainTip prev =>
      refine .bind (hK.main none block raw hash prev hraw hparsed) fun _ => ?_
      exact .bind (hK.lift (beside_pruneAlternativeChains _)) fun _ => .pure _
    | mainDepth prev => exact hK.addToAlternativeTraced hraw hparsed hash prev none
    | alternative prevHash prev =>
      exact hK.addToAlternativeTraced hraw hparsed hash prev (some prevHash)

theorem addBlockTraced (hraw : raw ∈ U) : Traced.Keeps K (addBlockTraced cx raw) := by
  refine .bind ?_ fun _ => .pure _
  refine .bind (hK.lift (.modify fun s => .of_alts rfl rfl (.refl _))) fun _ => ?_
  refine .bind (hK.addBlockInnerTraced hraw) fun outcome x hx => ?_
  exact hK.beside x.1 { x.1 with unwound := [] } x.2 (.of_alts rfl rfl (.refl _)) hx

end Carried

/-- A call puts only blocks of `U` to the rules, and leaves only such blocks behind. -/
theorem keeps_addBlockTraced (hraw : raw ∈ U) :
    Traced.Keeps (Traced.Clean (KnowsBlocks U) (Attempt.Given U)) (addBlockTraced cx raw) := by
  refine Carried.addBlockTraced (U := U) ⟨fun _ h => h.1,?_,?_,?_,?_⟩ hraw
  · intro held block raw hash prev hraw hparsed
    exact keeps_addToMainTraced hparsed hraw hash prev
  · exact fun index log s hs => ⟨keeps_unwindBlock index s hs.1,hs.2⟩
  · exact fun s t log hstep h => ⟨hstep.knows h.1,h.2⟩
  · intro s view block raw hash prev log hraw hparsed h
    have hnote : Traced.Keeps (Traced.Clean (KnowsBlocks U) (Attempt.Given U))
        (Traced.note fun s => .alternative s view block raw hash prev : TracedM PUnit) :=
      .note fun _ _ => ⟨hraw,hparsed⟩
    exact hnote (s,log) h

theorem knowsBlocks_univ (s : ChainState) : KnowsBlocks Set.univ s :=
  ⟨fun _ _ _ => trivial,fun _ _ _ => trivial⟩

/-- `K` holds through the parts of `add_block`: a block put to the main chain, steps
that add no body, and a branch block put to the rules. -/
structure HoldsThrough (cx : Crypto) (K : ChainState × List Attempt → Prop) : Prop where
  main : ∀ held block raw hash prev,
    Traced.Keeps K (addToMainTraced cx held block raw hash prev)
  drop : ∀ s t log, DropsBodies s t → K (s,log) → K (t,log)
  note : ∀ s view block raw hash prev log, K (s,log) →
    K (s,log ++ [.alternative s view block raw hash prev])

theorem HoldsThrough.addBlockTraced (hK : HoldsThrough cx K) (raw : RawBlock) :
    Traced.Keeps K (addBlockTraced cx raw) :=
  Carried.addBlockTraced (U := Set.univ)
    { knows := fun x _ => knowsBlocks_univ x.1
      main := fun held block raw hash prev _ _ => hK.main held block raw hash prev
      unwind := fun index log s hs => hK.drop s _ log (drops_unwindBlock index s).1 hs
      beside := fun s t log hstep => hK.drop s t log (.of_store hstep.store hstep.cfg)
      note := fun s view block raw hash prev log _ _ => hK.note s view block raw hash prev log }
    trivial

end

end ChainState

/-! A run with the log of all its calls. -/

def runBlocksTraced (cx : Crypto) (offers : List (Nat × RawBlock))
    (x : ChainState × List Attempt) : ChainState × List Attempt :=
  offers.foldl (fun x offer =>
    finalState (ChainState.addBlockTraced cx offer.2 (x.1.atClock offer.1,x.2))) x

section

variable {cx : Crypto} {U : Set RawBlock}

theorem runBlocksTraced_fst (offers : List (Nat × RawBlock)) (x : ChainState × List Attempt) :
    (runBlocksTraced cx offers x).1 = runBlocks cx offers x.1 := by
  induction offers generalizing x with
  | nil => rfl
  | cons offer offers ih =>
    unfold runBlocksTraced
    rw [List.foldl_cons]
    refine (ih _).trans ?_
    rw [(ChainState.addBlockTraced_follows offer.2).finalState_eq]
    rfl

theorem runBlocksTraced_given {offers : List (Nat × RawBlock)}
    (hoffers : ∀ offer ∈ offers, offer.2 ∈ U) {x : ChainState × List Attempt}
    (hx : Traced.Clean (ChainState.KnowsBlocks U) (Attempt.Given U) x) :
    Traced.Clean (ChainState.KnowsBlocks U) (Attempt.Given U) (runBlocksTraced cx offers x) := by
  induction offers generalizing x with
  | nil => exact hx
  | cons offer offers ih =>
    refine ih (fun o ho => hoffers o (List.mem_cons_of_mem _ ho)) ?_
    exact ChainState.keeps_addBlockTraced (hoffers offer List.mem_cons_self) _
      ⟨hx.1.congr rfl (.refl _),hx.2⟩

theorem openOrGenesis_knowsBlocks {cfg : Config} {checkpoints : Checkpoints} {clock : Nat}
    {s : ChainState} (hopen : ChainState.openOrGenesis cx cfg checkpoints clock = .ok ⟨⟩ s)
    (raws : List RawBlock) : s.KnowsBlocks (blocksOf cx raws) := by
  obtain ⟨g,hg,hs⟩ := openOrGenesis_eq hopen
  have hsound := genesis_sound hg (hg.mem_blocksOf raws) hs
  refine ⟨fun h alt halt => ?_,fun i raw hraw => ?_⟩
  · obtain ⟨t,p,halt⟩ := hsound.alts h alt halt
    exact halt.known
  · obtain ⟨b,hb,rfl⟩ := hsound.holds.rawBlocks i raw hraw
    exact hsound.linked.known b (List.mem_of_getElem? hb)

end

end Wrkz
