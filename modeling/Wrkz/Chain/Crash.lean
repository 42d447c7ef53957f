import Wrkz.Library.Overlay
import Wrkz.Chain.Attempts
import Wrkz.Chain.Representation

/-!
A node that holds its writes back and stops. Every call writes through batches, what
it reads is what an unbatched store would say, and the store below is only changed at
a block boundary; so the content a stopped node is opened from again is the one after
some of the calls.
-/

set_option autoImplicit false

namespace Wrkz

open Library KeyValue

def oldestReadableSchemaVersion : Nat := 3

namespace ChainState

def unopened (cfg : Config) (checkpoints : Checkpoints) (clock : Nat) (store : Store) :
    ChainState where
  store := store
  cfg := cfg
  checkpoints := checkpoints
  tip := none
  recent := []
  blockMedianSize := 0
  altBlocks := ∅
  unwound := []
  clock := clock
  powHint := none
  strictTransactionList := true

def put (op : WriteOp) : ChainM PUnit.{1} :=
  modify fun s => { s with store := s.store.writeBatch [op] }

def settleLiteHeight : ChainM PUnit.{1} := fun s =>
  let asked := s.cfg.liteStartHeight
  match s.store .metaLiteHeight with
  | none =>
    if asked = 0 then .ok ⟨⟩ s
    else if s.tip = none then put ⟨.metaLiteHeight, some asked⟩ s
    else .error (.corrupt s!"this database was built as a full node and holds block bodies from genesis; it cannot be reopened as a lite node with full block data from height {asked}, because lite mode is permanent for a database. Start a lite node in an empty --data-dir.") s
  | some recorded =>
    if recorded = asked then .ok ⟨⟩ s
    else if asked = 0 then
      .error (.corrupt s!"this database was created as a lite node with full block data from height {recorded}: it has no block bodies below {recorded} and cannot serve them, so it cannot be opened as a full node. Pass --lite --lite-height {recorded}, or point --data-dir at a full database.") s
    else
      .error (.corrupt s!"this database was created as a lite node with full block data from height {recorded}, and lite mode is permanent for a database: it has no bodies below {recorded} and no run can write them now. Pass --lite-height {recorded}, not {asked}.") s

def settleNetwork : ChainM PUnit.{1} := fun s =>
  match (s.store .metaNetwork).isSome, s.cfg.simnet with
  | false, false => .ok ⟨⟩ s
  | true, true => .ok ⟨⟩ s
  | false, true =>
    if s.tip = none then put ⟨.metaNetwork, some ()⟩ s
    else .error (.corrupt "this database holds a mainnet chain and cannot be opened as a simnet. Start the simnet in an empty --data-dir.") s
  | true, false => .error (.corrupt "this database belongs to a simnet, whose blocks carry no proof of work; it can never be opened as mainnet. Pass --simnet, or point --data-dir at a mainnet database.") s

def checkSchemaVersion : ChainM PUnit.{1} := fun s =>
  match s.store .metaVersion with
  | none => .ok ⟨⟩ s
  | some v =>
    if oldestReadableSchemaVersion ≤ v ∧ v ≤ stateSchemaVersion then .ok ⟨⟩ s
    else .error (.corrupt s!"state schema version {v}, this build reads {oldestReadableSchemaVersion} to {stateSchemaVersion}") s

def recordPruneDepth : ChainM PUnit.{1} := fun s =>
  match s.cfg.pruneDepth with
  | none => .ok ⟨⟩ s
  | some depth => put ⟨.metaPruneDepth, some depth⟩ s

/-- `open`, of a store with any content. -/
def openStore : ChainM PUnit.{1} := do
  checkSchemaVersion
  modify fun s => { s with tip := s.store .metaTip }
  settleLiteHeight
  settleNetwork
  recordPruneDepth
  reloadRecent
  updateBlockMedianSize

end ChainState

/-- A write of a block: the settings are never touched and the version is the current one. -/
def Ordinary : WriteOp → Prop
  | ⟨.metaVersion,r⟩ => r = some stateSchemaVersion
  | ⟨.metaLiteHeight,_⟩ => False
  | ⟨.metaPruneDepth,_⟩ => False
  | ⟨.metaNetwork,_⟩ => False
  | _ => True

/-- Handed to the store one after the other, the batches lead from `s` to `t`. -/
structure Journal (s t : ChainState) (batches : List (List WriteOp)) : Prop where
  cfg : t.cfg = s.cfg
  store : t.store = s.store.writeBatch batches.flatten
  ordinary : ∀ op ∈ batches.flatten, Ordinary op

def Journaled (s t : ChainState) : Prop := ∃ batches, Journal s t batches

variable {s t : ChainState}

theorem Journaled.of_eq (hcfg : t.cfg = s.cfg) (hstore : t.store = s.store) : Journaled s t :=
  ⟨[],hcfg,hstore,by simp⟩

theorem Journaled.refl (s : ChainState) : Journaled s s := .of_eq rfl rfl

theorem Journaled.trans {s t u : ChainState} (h : Journaled s t) (h' : Journaled t u) :
    Journaled s u := by
  obtain ⟨ws,hws⟩ := h
  obtain ⟨ws',hws'⟩ := h'
  refine ⟨ws ++ ws',hws'.cfg.trans hws.cfg,?_,?_⟩
  · rw [hws'.store, hws.store, List.flatten_append, writeBatch_append]
  · intro op hop
    rw [List.flatten_append, List.mem_append] at hop
    exact hop.elim (hws.ordinary op) (hws'.ordinary op)

theorem journaled_trans : ∀ s t u : ChainState, Journaled s t → Journaled t u → Journaled s u :=
  fun _ _ _ => Journaled.trans

theorem Journaled.batch {ops : List WriteOp} (hcfg : t.cfg = s.cfg)
    (hstore : t.store = s.store.writeBatch ops) (hops : ∀ op ∈ ops, Ordinary op) : Journaled s t :=
  ⟨[ops],hcfg,by simpa using hstore,by simpa using hops⟩

namespace ChainState

variable {s : ChainState} {cx : Crypto}

theorem ordinary_pushOps (index : Nat) (block : BlockTemplate) (raw : RawBlock) (coinbaseHash : Hash)
    (a : Accepted) : ∀ op ∈ s.pushOps index block raw coinbaseHash a, Ordinary op := by
  intro op hop
  cases pushes_of_mem hop <;> trivial

theorem ordinary_finish (scratch : UnwindScratch) : ∀ op ∈ scratch.finish, Ordinary op := by
  intro op hop
  simp only [UnwindScratch.finish, List.mem_append, List.mem_map] at hop
  rcases hop with (⟨e,_,rfl⟩ | ⟨e,_,rfl⟩) | ⟨e,_,rfl⟩ <;> trivial

theorem ordinary_unwindOps {index : Nat} {scratch : UnwindScratch}
    {r : List WriteOp × UnwindScratch} (h : s.unwindOps cx index scratch = .ok r) :
    ∀ op ∈ r.1, Ordinary op := by
  rintro ⟨k,v⟩ hop
  have hk : k.OfBlock := (unwindOps_deletes h _ hop).1
  cases k <;> trivial

theorem journaled_liftExcept_bind {α β : Type} {x : Except ChainError α} {f : α → ChainM β}
    (h : ∀ a, x = .ok a → Journaled s (finalState (f a s))) :
    Journaled s (finalState ((liftExcept x >>= f) s)) := by
  cases hx : x with
  | error e =>
    rw [run_bind_of_error (liftExcept_error e s)]
    exact Journaled.refl s
  | ok a =>
    rw [run_bind_of_ok (liftExcept_ok a s)]
    exact h a hx

theorem stepsBy_updateBlockMedianSize : StepsBy Journaled updateBlockMedianSize := by
  intro s
  unfold updateBlockMedianSize
  split <;> exact .of_eq rfl rfl

theorem stepsBy_reloadRecent : StepsBy Journaled reloadRecent := by
  intro s
  unfold reloadRecent
  split
  · exact .of_eq rfl rfl
  · dsimp only
    split <;> exact .of_eq rfl rfl

theorem stepsBy_pushBlock (index : Nat) (block : BlockTemplate) (raw : RawBlock) (a : Accepted) :
    StepsBy Journaled (pushBlock cx index block raw a) := by
  intro s
  unfold pushBlock
  split
  · exact Journaled.refl s
  · rename_i coinbaseHash _
    let t : ChainState := { s with
      store := s.store.writeBatch (s.pushOps index block raw coinbaseHash a)
      tip := some index
      recent := (s.recent ++ [a.info]).drop ((s.recent ++ [a.info]).length - s.cfg.recentWindow) }
    have hbatch : Journaled s t := .batch rfl rfl (ordinary_pushOps index block raw coinbaseHash a)
    exact hbatch.trans (stepsBy_updateBlockMedianSize t)

theorem stepsBy_unwindBlock (index : Nat) : StepsBy Journaled (unwindBlock cx index) := by
  unfold unwindBlock
  refine .get_bind fun s => journaled_liftExcept_bind fun _ _ => ?_
  refine journaled_liftExcept_bind fun r hr => ?_
  let newTip := if index = 0 then none else some (index-1)
  let t : ChainState := { s with
    store := s.store.writeBatch (r.1 ++ r.2.finish ++ [(⟨.metaTip, newTip⟩ : WriteOp)])
    tip := newTip }
  have hbatch : Journaled s t := by
    refine .batch rfl rfl fun op hop => ?_
    simp only [List.mem_append, List.mem_singleton] at hop
    rcases hop with (hop | hop) | rfl
    · exact ordinary_unwindOps hr op hop
    · exact ordinary_finish r.2 op hop
    · trivial
  exact hbatch.trans (StepsBy.bind journaled_trans stepsBy_reloadRecent
    (fun _ => stepsBy_updateBlockMedianSize) t)

theorem stepsBy_addToMain (block : BlockTemplate) (raw : RawBlock) (hash : Hash)
    (previousIndex : Nat) : StepsBy Journaled (addToMain cx block raw hash previousIndex) := by
  unfold addToMain
  refine StepsBy.get_bind fun s => journaled_liftExcept_bind fun a _ => ?_
  exact StepsBy.bind journaled_trans (stepsBy_pushBlock _ block raw a)
    (fun _ => StepsBy.pure Journaled.refl _) s

/-- Whatever a call of `add_block` does to the store, it does in batches. -/
theorem stepsBy_addBlock (raw : RawBlock) : StepsBy Journaled (addBlock cx raw) := by
  intro s
  have hcarried : Carried cx Set.univ fun x => Journaled s x.1 :=
    { knows := fun x _ => knowsBlocks_univ x.1
      main := fun _ block raw hash prev _ _ => .bind (fun _ h => h) fun _ =>
        .lift_of fun _ t ht => ht.trans (stepsBy_addToMain block raw hash prev t)
      unwind := fun index _ t ht => ht.trans (stepsBy_unwindBlock index t)
      beside := fun _ _ _ hstep ht => ht.trans (.of_eq hstep.cfg hstep.store)
      note := fun _ _ _ _ _ _ _ _ _ ht => ht }
  rw [← (addBlockTraced_follows raw).finalState_eq (s,[])]
  exact hcarried.addBlockTraced trivial (s,[]) (.refl s)

end ChainState

/-- The settings in the store are those of the configuration. -/
structure Settings (s : ChainState) : Prop where
  version : s.store .metaVersion = some stateSchemaVersion
  liteHeight : s.store .metaLiteHeight =
    if s.cfg.liteStartHeight = 0 then none else some s.cfg.liteStartHeight
  network : (s.store .metaNetwork).isSome = s.cfg.simnet
  pruneDepth : s.store .metaPruneDepth = s.cfg.pruneDepth

theorem Journal.settings {batches : List (List WriteOp)}
    (h : Journal s t batches) (hs : Settings s) : Settings t := by
  have hkeep (k : Key) (hk : ∀ r, ¬ Ordinary ⟨k,r⟩) : t.store k = s.store k := by
    rw [h.store]
    refine writeBatch_of_untouched fun op hop heq => ?_
    subst heq
    exact hk op.2 (h.ordinary op hop)
  have hversion : t.store .metaVersion = some stateSchemaVersion := by
    rw [h.store]
    rcases writeBatch_eq_or_mem s.store batches.flatten .metaVersion with heq | hmem
    · rw [heq, hs.version]
    · exact h.ordinary _ hmem
  refine ⟨hversion,?_,?_,?_⟩
  · rw [hkeep .metaLiteHeight fun _ hr => hr, h.cfg, hs.liteHeight]
  · rw [hkeep .metaNetwork fun _ hr => hr, h.cfg, hs.network]
  · rw [hkeep .metaPruneDepth fun _ hr => hr, h.cfg, hs.pruneDepth]

theorem Journaled.settings (h : Journaled s t) (hs : Settings s) : Settings t :=
  h.elim fun _ hj => hj.settings hs

namespace ChainState

variable {cx : Crypto} {cfg : Config} {checkpoints : Checkpoints} {clock : Nat}
  {s s₀ : ChainState}

theorem settings_of_open (hopen : openOrGenesis cx cfg checkpoints clock = .ok ⟨⟩ s₀) :
    Settings s₀ := by
  obtain ⟨g,_,rfl⟩ := openOrGenesis_eq hopen
  have hops := ordinary_pushOps (s := openEmpty cfg checkpoints clock) 0 g.block g.raw
    g.coinbaseHash (g.accepted 0)
  have hstore : ((openEmpty cfg checkpoints clock).afterPush [] g).store =
      (openEmpty cfg checkpoints clock).store.writeBatch
        ((openEmpty cfg checkpoints clock).pushOps 0 g.block g.raw g.coinbaseHash
          (g.accepted 0)) := rfl
  have hkeep (k : Key) (hk : ∀ r, ¬ Ordinary ⟨k,r⟩) :
      ((openEmpty cfg checkpoints clock).afterPush [] g).store k =
        empty.writeBatch (openOps cfg) k := by
    rw [hstore]
    refine writeBatch_of_untouched fun op hop heq => ?_
    subst heq
    exact hk op.2 (hops op hop)
  have hopened : empty.writeBatch (openOps cfg) .metaLiteHeight =
      (if cfg.liteStartHeight = 0 then none else some cfg.liteStartHeight) ∧
      (empty.writeBatch (openOps cfg) .metaNetwork).isSome = cfg.simnet ∧
      empty.writeBatch (openOps cfg) .metaPruneDepth = cfg.pruneDepth := by
    unfold openOps
    by_cases hlite : cfg.liteStartHeight = 0 <;> cases cfg.simnet <;> cases cfg.pruneDepth <;>
      simp [hlite, empty]
  refine ⟨?_,(hkeep .metaLiteHeight fun _ hr => hr).trans hopened.1,?_,
    (hkeep .metaPruneDepth fun _ hr => hr).trans hopened.2.2⟩
  · rw [hstore]
    exact writeBatch_of_mem (by simp [pushOps, metaOps]) fun r hr => hops _ hr
  · rw [hkeep .metaNetwork fun _ hr => hr]
    exact hopened.2.1

/-- A state as `open` leaves it: what was held outside the store is read back, and the
branches are forgotten. -/
def reopened (s : ChainState) (checkpoints : Checkpoints) (clock : Nat) : ChainState :=
  { unopened s.cfg checkpoints clock s.store with
    tip := s.tip, recent := s.recent, blockMedianSize := s.blockMedianSize }

variable {chain : MainChain cx} {U : Set RawBlock}

/-- Opening a store with the tables of a chain gives back the tip, the window of infos
and the median of the state that wrote it, and writes nothing. -/
theorem openStore_eq (h : Sound U s chain)
    (hset : Settings s) (checkpoints : Checkpoints) (clock : Nat) :
    openStore (unopened s.cfg checkpoints clock s.store) =
      .ok ⟨⟩ (s.reopened checkpoints clock) := by
  obtain ⟨tip,htip⟩ : ∃ tip, s.tip = some tip := by
    rw [h.holds.tip]
    have hpos := List.length_pos_iff.2 h.nonempty
    exact ⟨chain.length-1,MainChain.tip_eq_some_iff.2 (by omega)⟩
  let u : ChainState := unopened s.cfg checkpoints clock s.store
  let v : ChainState := { u with tip := some tip }
  have hmeta : s.store .metaTip = some tip := h.holds.metaTip.trans htip
  have hversion : checkSchemaVersion u = .ok ⟨⟩ u := by
    unfold checkSchemaVersion
    have hread : u.store .metaVersion = some stateSchemaVersion := hset.version
    rw [hread]
    rfl
  have hlite : settleLiteHeight v = .ok ⟨⟩ v := by
    unfold settleLiteHeight
    have hread : v.store .metaLiteHeight =
        if v.cfg.liteStartHeight = 0 then none else some v.cfg.liteStartHeight := hset.liteHeight
    rw [hread]
    by_cases hzero : v.cfg.liteStartHeight = 0 <;> simp [hzero]
  have hnetwork : settleNetwork v = .ok ⟨⟩ v := by
    unfold settleNetwork
    have hread : (v.store .metaNetwork).isSome = v.cfg.simnet := hset.network
    rw [hread]
    cases v.cfg.simnet <;> rfl
  have hprune : recordPruneDepth v = .ok ⟨⟩ v := by
    unfold recordPruneDepth
    have hread : v.store .metaPruneDepth = v.cfg.pruneDepth := hset.pruneDepth
    cases hdepth : v.cfg.pruneDepth with
    | none => rfl
    | some depth =>
      rw [hdepth] at hread
      have hsame : v.store.writeBatch [⟨.metaPruneDepth, some depth⟩] = v.store := by
        rw [writeBatch_cons, writeBatch_nil, ← hread]
        exact Function.update_eq_self _ _
      change EStateM.Result.ok _ { v with store := v.store.writeBatch _ } = _
      rw [hsame]
  have hrecent : reloadRecent v = .ok ⟨⟩ { v with recent := s.recent } := by
    have hlen := MainChain.tip_eq_some_iff.1 (h.holds.tip.symm.trans htip)
    have hinfos := reloadInfos_eq (t := v) h.holds.infos
      (tip + 1 - (tip + 1 - s.cfg.recentWindow)) (tip + 1 - s.cfg.recentWindow) (by omega)
    have hwindow : v.reloadInfos (List.range' (tip + 1 - v.cfg.recentWindow)
        (tip + 1 - (tip + 1 - v.cfg.recentWindow))) = .ok s.recent := by
      rw [h.holds.recent, hlen]
      exact hinfos
    have hv : v.tip = some tip := rfl
    simp only [reloadRecent, hv, hwindow]
  have htables : HoldsTables { v with recent := s.recent } chain :=
    h.holds.toHoldsTables.congr rfl rfl htip.symm rfl
  obtain ⟨hmedian,_⟩ := htables.updateBlockMedianSize_spec
  unfold openStore
  rw [run_bind_of_ok hversion, run_modify_bind]
  have hread : ({ u with tip := u.store .metaTip } : ChainState) = v := by
    change ({ u with tip := s.store .metaTip } : ChainState) = v
    rw [hmeta]
  rw [hread, run_bind_of_ok hlite, run_bind_of_ok hnetwork, run_bind_of_ok hprune,
    run_bind_of_ok hrecent, hmedian, ← h.holds.median]
  unfold reopened
  rw [htip]

end ChainState

abbrev BatchStore := Overlay Key.Record

/-- A call of `add_block` on a batched node: the block and the clock, the batches it
hands to the store, and whether the caller then marks a block boundary. -/
structure BatchedCall where
  now : Nat
  raw : RawBlock
  batches : List (List WriteOp)
  boundary : Bool

namespace BatchedCall

def offer (call : BatchedCall) : Nat × RawBlock := (call.now,call.raw)

def write (limits : OverlayLimits Key.Record) (store : BatchStore) (call : BatchedCall) :
    BatchStore :=
  let store := store.writeBatches limits call.batches
  if call.boundary then store.flushIfFull limits else store

end BatchedCall

def sampleLimits : OverlayLimits Key.Record := ⟨fun _ => 1,fun _ _ => 1,64,2,1000000⟩

end Wrkz
