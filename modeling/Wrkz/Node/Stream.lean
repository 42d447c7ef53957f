import Wrkz.Chain.Reported
import Wrkz.Node.Agreement

/-!
A listener and the main chain. The listener keeps a list of hashes and changes it as the
events tell it to. If every block is handed over when nothing else is in progress, the list
is the main chain whenever the node is at rest; a block that is handed over earlier can be
described after one that replaced it.
-/

set_option autoImplicit false

namespace Wrkz

open Library SharedNode MainChain ChainEvent Describing AppliedBlock List

namespace ChainEvent

/-- What a listener makes of an event: a block goes in at its index, a switch cuts the list
after the common root, which is the first hash it names. -/
def follow (hashes : List Hash) : ChainEvent → List Hash
  | .blockAdded index hash _ => hashes.take index ++ [hash]
  | .chainSwitched root listed => hashes.take (root+1) ++ listed.drop 1
  | _ => hashes

def tells : ChainEvent → Option (AddStatus × Nat × Hash)
  | .blockAdded index hash _ => some (.main,index,hash)
  | .alternativeBlockAdded index hash => some (.alternative,index,hash)
  | .chainSwitched root listed =>
    listed.getLast?.map fun hash => (.alternativeAndSwitched,root + listed.length - 1,hash)
  | .poolAdded _ | .poolRemoved _ _ => none

end ChainEvent

def followAll (hashes : List Hash) (events : List ChainEvent) : List Hash :=
  events.foldl follow hashes

def AddOutcome.told (outcome : AddOutcome) : AddStatus × Nat × Hash :=
  (outcome.status,outcome.index,outcome.hash)

theorem followAll_append (hashes : List Hash) (events later : List ChainEvent) :
    followAll hashes (events ++ later) = followAll (followAll hashes events) later :=
  foldl_append

def ChainState.mainHashes (s : ChainState) : List Hash :=
  match s.tip with
  | none => []
  | some tip => (List.range (tip+1)).filterMap fun i => (s.chainHash i).toOption

def MainChain.ids {cx : Crypto} (chain : MainChain cx) : List Hash :=
  chain.map fun b => b.info.blockHash

section

variable {cx : Crypto} {s : ChainState} {chain : MainChain cx}

@[simp] theorem MainChain.ids_length (chain : MainChain cx) : chain.ids.length = chain.length :=
  length_map _

@[simp] theorem MainChain.ids_append (p q : MainChain cx) :
    ids (p ++ q) = p.ids ++ q.ids := map_append

theorem HoldsTables.chainHash_toOption (h : HoldsTables s chain) (i : Nat) :
    (s.chainHash i).toOption = chain.ids[i]? := by
  unfold ChainState.chainHash ids
  rw [h.blockInfo_eq, getElem?_map]
  cases chain[i]? <;> rfl

theorem HoldsTables.blockHashByIndex_eq (h : HoldsTables s chain) {i : Nat}
    (hi : i < chain.length) : s.blockHashByIndex i = chain.ids[i]? := by
  have htip : s.tip = some (chain.length - 1) := by
    rw [h.tip]
    exact tip_eq_some_iff.2 (by omega)
  unfold ChainState.blockHashByIndex
  rw [htip, Option.getD_some, if_neg (by omega), h.chainHash_toOption]

theorem filterMap_range'_getElem? {α : Type} (l : List α) (start : Nat) :
    (range' start (l.length - start)).filterMap (fun i => l[i]?) = l.drop start := by
  induction hn : l.length - start generalizing start with
  | zero =>
    rw [drop_eq_nil_of_le (by omega)]
    rfl
  | succ n ih =>
    have hlt : start < l.length := by omega
    rw [range'_succ, filterMap_cons, getElem?_eq_getElem hlt,
      ih (start+1) (by omega), drop_eq_getElem_cons hlt]

theorem HoldsTables.mainHashes_eq (h : HoldsTables s chain) (hne : chain ≠ []) :
    s.mainHashes = chain.ids := by
  have hlen := length_pos_iff.2 hne
  have htip : s.tip = some (chain.length - 1) := by
    rw [h.tip]
    exact tip_eq_some_iff.2 (by omega)
  unfold ChainState.mainHashes
  rw [htip]
  simp only [h.chainHash_toOption]
  rw [Nat.sub_add_cancel hlen, range_eq_range', ← chain.ids_length]
  exact filterMap_range'_getElem? chain.ids 0

end

namespace Describing

variable {cx : Crypto} {hashAt : Nat → Option Hash} {main : List Hash}
  {d d' : Describing} {events : List ChainEvent}

def untold (cx : Crypto) (main : List Hash) : Describing → List ChainEvent
  | .reading applied hashes left =>
    applied.blockEvents cx (some (hashes ++ left.filterMap fun i => main[i]?))
  | .publishing events => events

def InRange (length : Nat) : Describing → Prop
  | .reading _ _ left => ∀ i ∈ left, i < length
  | .publishing _ => True

theorem step_untold (hread : ∀ i, i < main.length → hashAt i = main[i]?)
    (hrange : d.InRange main.length) (hstep : d.step cx hashAt = some (d',events)) :
    events ++ d'.untold cx main = d.untold cx main ∧ d'.InRange main.length := by
  cases d with
  | reading applied hashes left =>
    cases left with
    | nil =>
      cases hstep
      exact ⟨by simp [untold],trivial⟩
    | cons index left =>
      have hlt : index < main.length := hrange index mem_cons_self
      have hhash : hashAt index = some main[index] := by
        rw [hread index hlt, getElem?_eq_getElem hlt]
      simp only [step, hhash, Option.some.injEq, Prod.mk.injEq] at hstep
      obtain ⟨rfl,rfl⟩ := hstep
      refine ⟨?_,fun i hi => hrange i (mem_cons_of_mem _ hi)⟩
      simp [untold, getElem?_eq_getElem hlt]
  | publishing waiting =>
    cases waiting with
    | nil => cases hstep
    | cons event waiting =>
      cases hstep
      exact ⟨rfl,trivial⟩

theorem untold_of_done (hstep : d.step cx hashAt = none) : d.untold cx main = [] := by
  cases d with
  | reading applied hashes left =>
    cases left with
    | nil => cases hstep
    | cons index left =>
      cases hhash : hashAt index <;> simp [step, hhash] at hstep
  | publishing waiting =>
    cases waiting with
    | nil => rfl
    | cons event waiting => cases hstep

theorem start_untold (applied : AppliedBlock) : (start cx applied).untold cx main =
    applied.blockEvents cx (applied.switchIndexes.map fun indexes =>
      indexes.filterMap fun i => main[i]?) := by
  unfold start
  cases applied.switchIndexes <;> rfl

end Describing

namespace AppliedBlock

variable {applied : AppliedBlock}

theorem poolEvents_eq (applied : AppliedBlock) : ∀ event ∈ applied.poolEvents,
    (∃ hash, event = .poolAdded hash) ∨ ∃ hashes reason, event = .poolRemoved hashes reason := by
  intro event hevent
  simp only [poolEvents, removalEvents, mem_append, mem_map] at hevent
  rcases hevent with (hremoved | hremoved) | ⟨hash,_,rfl⟩
  · split at hremoved
    · cases hremoved
    · exact .inr ⟨_,_,mem_singleton.1 hremoved⟩
  · split at hremoved
    · cases hremoved
    · exact .inr ⟨_,_,mem_singleton.1 hremoved⟩
  · exact .inl ⟨hash,rfl⟩

theorem followAll_poolEvents (applied : AppliedBlock) (main : List Hash) :
    followAll main applied.poolEvents = main := by
  have hquiet : ∀ events : List ChainEvent, (∀ event ∈ events, event.follow main = main) →
      followAll main events = main := by
    intro events
    induction events with
    | nil => exact fun _ => rfl
    | cons event events ih =>
      intro h
      rw [followAll, foldl_cons, h event mem_cons_self]
      exact ih fun e he => h e (mem_cons_of_mem _ he)
  refine hquiet _ fun event hevent => ?_
  rcases applied.poolEvents_eq event hevent with ⟨_,rfl⟩ | ⟨_,_,rfl⟩ <;> rfl

theorem tells_poolEvents (applied : AppliedBlock) : applied.poolEvents.filterMap tells = [] := by
  refine filterMap_eq_nil_iff.2 fun event hevent => ?_
  rcases applied.poolEvents_eq event hevent with ⟨_,rfl⟩ | ⟨_,_,rfl⟩ <;> rfl

/-- What a listener makes of a block that moved the main chain is what it makes of its
last event. -/
theorem blockEvents_of_moved (cx : Crypto) (hashes : Option (List Hash)) (main : List Hash)
    (hstatus : applied.outcome.status ≠ .alternative) :
    followAll main (applied.blockEvents cx hashes) = followAll main (applied.chainEvents cx hashes) ∧
      (applied.blockEvents cx hashes).filterMap tells =
        (applied.chainEvents cx hashes).filterMap tells := by
  unfold blockEvents
  rw [if_neg hstatus, followAll_append, followAll_poolEvents, filterMap_append, tells_poolEvents]
  exact ⟨rfl,rfl⟩

end AppliedBlock

/-- A description of an accepted block, once told in full, takes a listener from the chain
before the block to the chain after it, and reports the block as what it was. -/
theorem Reports.told {cx : Crypto} {raw : RawBlock} {chain chain' : MainChain cx}
    {report : AddReport} {applied : AppliedBlock} (h : Reports raw chain report chain')
    (houtcome : applied.outcome = report.outcome) (hblob : applied.blockBlob = raw.block)
    (hlowest : applied.lowestUnwound = report.unwound.getLast?.map UnwoundBlock.index) :
    (start cx applied).InRange chain'.length ∧
      followAll chain.ids ((start cx applied).untold cx chain'.ids) = chain'.ids ∧
      ((start cx applied).untold cx chain'.ids).filterMap tells =
        [report.outcome.told] := by
  rw [start_untold]
  cases h with
  | main b hraw hstatus hindex hhash =>
    subst hraw
    have hstatus' : applied.outcome.status = .main := by rw [houtcome, hstatus]
    have hnone : applied.switchIndexes = none := by
      rw [switchIndexes, if_neg (by simp [hstatus'])]
    obtain ⟨hfollow,htells⟩ := blockEvents_of_moved cx none chain.ids
      (show applied.outcome.status ≠ .alternative by simp [hstatus'])
    have hevents : ∃ txs, applied.chainEvents cx none =
        [.blockAdded chain.length b.info.blockHash txs] := by
      simp only [chainEvents, houtcome, hstatus, hblob, b.parsed, hindex, hhash]
      exact ⟨_,rfl⟩
    obtain ⟨txs,hevents⟩ := hevents
    refine ⟨by rw [Describing.start, hnone]; trivial,?_,?_⟩
    · rw [hnone, Option.map_none, hfollow, hevents]
      simp [followAll, follow, ids]
    · rw [hnone, Option.map_none, htells, hevents]
      simp [tells, AddOutcome.told, hstatus, hindex, hhash]
  | alternative hstatus =>
    have hstatus' : applied.outcome.status = .alternative := by rw [houtcome, hstatus]
    have hnone : applied.switchIndexes = none := by
      rw [switchIndexes, if_neg (by simp [hstatus'])]
    have hevents : applied.blockEvents cx none =
        [.alternativeBlockAdded report.outcome.index report.outcome.hash] := by
      rw [AppliedBlock.blockEvents, if_pos hstatus', houtcome]
    refine ⟨by rw [Describing.start, hnone]; trivial,?_,?_⟩
    · rw [hnone, Option.map_none, hevents]
      rfl
    · rw [hnone, Option.map_none, hevents]
      simp [tells, AddOutcome.told, hstatus]
  | switched p q bs b hchain hp hstatus hlow hlast hhash hindex =>
    subst hchain
    have hlen := length_pos_iff.2 hp
    have hstatus' : applied.outcome.status = .alternativeAndSwitched := by rw [houtcome, hstatus]
    have hlowest' : applied.lowestUnwound = some p.length := hlowest.trans hlow
    have hindexes : applied.switchIndexes =
        some (range' (p.length-1) ((p ++ bs).length - (p.length-1))) := by
      rw [switchIndexes, if_pos hstatus', hlowest', houtcome, hindex, Option.map_some]
    have hread : applied.switchIndexes.map (fun indexes =>
        indexes.filterMap fun i => (ids (p ++ bs))[i]?) =
          some ((ids (p ++ bs)).drop (p.length-1)) := by
      rw [hindexes, Option.map_some, ← filterMap_range'_getElem?, ids_length]
    have hevents : applied.chainEvents cx (some ((ids (p ++ bs)).drop (p.length-1))) =
        [.chainSwitched (p.length-1) ((ids (p ++ bs)).drop (p.length-1))] := by
      simp only [chainEvents, hstatus', hlowest']
    obtain ⟨hfollow,htells⟩ := blockEvents_of_moved cx
      (some ((ids (p ++ bs)).drop (p.length-1))) (ids (p ++ q))
      (show applied.outcome.status ≠ .alternative by simp [hstatus'])
    refine ⟨?_,?_,?_⟩
    · rw [Describing.start, hindexes]
      intro i hi
      rw [mem_range'_1] at hi
      omega
    · rw [hread, hfollow, hevents]
      simp only [followAll, foldl_cons, foldl_nil, follow, drop_drop,
        Nat.sub_add_cancel hlen, ids_append]
      rw [← ids_length p, take_left, drop_left]
    · have hend : ((ids (p ++ bs)).drop (p.length-1)).getLast? = some b.info.blockHash := by
        rw [getLast?_drop, ids_length, if_neg (by rw [length_append]; omega),
          ids, getLast?_map, hlast, Option.map_some]
      have hplace : p.length - 1 + ((ids (p ++ bs)).drop (p.length-1)).length - 1 =
          report.outcome.index := by
        rw [length_drop, ids_length, ← hindex]
        rw [length_append] at hindex
        omega
      rw [hread, htells, hevents]
      simp only [filterMap_cons, filterMap_nil, tells, hend, hplace,
        Option.map_some, AddOutcome.told, hstatus, hhash]

def EngineCall.description (cx : Crypto) : EngineCall → List Describing
  | .idle => []
  | .checking raw report | .mined raw report | .switched raw report | .unwound raw report
  | .cleaning raw report => [.start cx (.ofReport raw report)]
  | .describing description => [description]

namespace SharedNode

variable {cx : Crypto}

def pending (n : SharedNode cx) : List Describing := n.engine.description cx ++ n.submits

theorem pending_eq_nil_iff {n : SharedNode cx} : n.pending = [] ↔ n.AtRest := by
  rw [pending, append_eq_nil_iff, AtRest]
  cases n.engine <;> simp [EngineCall.description]

/-- A block is handed over only when the one before has been described, and the clock does
not go back. -/
def Orderly (n : SharedNode cx) : SharedEvent → Prop
  | .apply _ now | .submit _ now => n.AtRest ∧ n.chain.clock ≤ now
  | _ => True

instance (n : SharedNode cx) : (e : SharedEvent) → Decidable (n.Orderly e)
  | .apply _ _ | .submit _ _ => inferInstanceAs (Decidable (_ ∧ _))
  | .tick _ | .addTransaction _ _ | .engine | .submitStep _ => inferInstanceAs (Decidable True)

end SharedNode

/-- Once everything in progress is told, a listener that began with `first` has the main
chain, and every outcome has been reported. -/
structure Told {cx : Crypto} (U : Set RawBlock) (cfg : Config) (checkpoints : Checkpoints)
    (first : List Hash) (n : SharedNode cx) (chain : MainChain cx) : Prop where
  grove : Grove cfg checkpoints n.chain.clock U n.chain chain
  offTip : OffTip n.chain.altBlocks chain
  single : n.pending.length ≤ 1
  inRange : ∀ d ∈ n.pending, d.InRange chain.length
  follows : followAll first (n.stream ++ n.pending.flatMap (untold cx chain.ids)) = chain.ids
  reports : (n.stream ++ n.pending.flatMap (untold cx chain.ids)).filterMap tells =
    n.applied.map AddOutcome.told

namespace Told

variable {cx : Crypto} {U : Set RawBlock} {cfg : Config} {checkpoints : Checkpoints}
  {first : List Hash} {n m : SharedNode cx} {chain : MainChain cx}

section

variable (h : Told U cfg checkpoints first n chain) (hchain : m.chain = n.chain)
  (happlied : m.applied = n.applied)
include h hchain happlied

theorem of_same (hsingle : m.pending.length ≤ 1) (hrange : ∀ d ∈ m.pending, d.InRange chain.length)
    (hstream : m.stream ++ m.pending.flatMap (untold cx chain.ids) =
      n.stream ++ n.pending.flatMap (untold cx chain.ids)) :
    Told U cfg checkpoints first m chain where
  grove := hchain ▸ h.grove
  offTip := hchain ▸ h.offTip
  single := hsingle
  inRange := hrange
  follows := hstream ▸ h.follows
  reports := by rw [hstream, happlied]; exact h.reports

theorem of_pool (hpending : m.pending = n.pending)
    (hstream : m.stream = n.stream) : Told U cfg checkpoints first m chain :=
  h.of_same hchain happlied (hpending ▸ h.single) (hpending ▸ h.inRange) (by rw [hstream, hpending])

end

variable {now : Nat} {hashAt : Nat → Option Hash} {raw : RawBlock}

section

variable (h : Told U cfg checkpoints first n chain)
include h

theorem of_step {d d' : Describing} {events : List ChainEvent}
    (hread : ∀ i, i < chain.length → hashAt i = chain.ids[i]?) (hd : n.pending = [d])
    (hstep : d.step cx hashAt = some (d',events)) (hchain : m.chain = n.chain)
    (happlied : m.applied = n.applied) (hpending : m.pending = [d'])
    (hstream : m.stream = n.stream ++ events) : Told U cfg checkpoints first m chain := by
  have hrange : d.InRange chain.ids.length := by
    rw [chain.ids_length]
    exact h.inRange d (by simp [hd])
  obtain ⟨huntold,hrange'⟩ := step_untold (fun i hi => hread i (by simpa using hi)) hrange hstep
  refine h.of_same hchain happlied (by simp [hpending]) ?_ ?_
  · intro x hx
    rw [hpending, mem_singleton] at hx
    subst hx
    simpa using hrange'
  · rw [hstream, hpending, hd]
    simp [huntold]

theorem of_done {d : Describing} (hd : n.pending = [d]) (hstep : d.step cx hashAt = none)
    (hchain : m.chain = n.chain) (happlied : m.applied = n.applied) (hpending : m.pending = [])
    (hstream : m.stream = n.stream) : Told U cfg checkpoints first m chain := by
  refine h.of_same hchain happlied (by simp [hpending]) (by simp [hpending]) ?_
  rw [hstream, hpending, hd]
  simp [untold_of_done hstep]

theorem engineStep : Told U cfg checkpoints first n.engineStep chain := by
  have hsingle := h.single
  unfold SharedNode.engineStep
  cases hengine : n.engine with
  | idle => exact h
  | checking raw report =>
    refine h.of_pool rfl rfl ?_ rfl
    unfold pending
    rw [hengine]
    dsimp only
    split <;> rfl
  | mined raw report | switched raw report | unwound raw report | cleaning raw report =>
    refine h.of_pool rfl rfl ?_ rfl
    unfold pending
    rw [hengine]
    rfl
  | describing d =>
    have hsubmits : n.submits = [] := by
      rw [pending, hengine] at hsingle
      simpa [EngineCall.description] using hsingle
    have hd : n.pending = [d] := by
      rw [pending, hengine, hsubmits]
      rfl
    have hread : ∀ i, i < chain.length → (n.chain.chainHash i).toOption = chain.ids[i]? :=
      fun i _ => h.grove.kept.sound.holds.toHoldsTables.chainHash_toOption i
    cases hstep : d.step cx (fun i => (n.chain.chainHash i).toOption) with
    | none =>
      simp only [hstep]
      exact h.of_done hd hstep rfl rfl (by rw [pending, hsubmits]; rfl) rfl
    | some r =>
      obtain ⟨d',events⟩ := r
      simp only [hstep]
      exact h.of_step hread hd hstep rfl rfl (by rw [pending, hsubmits]; rfl) rfl

theorem submitStep (k : Nat) : Told U cfg checkpoints first (n.submitStep k) chain := by
  have hsingle := h.single
  unfold SharedNode.submitStep
  cases hget : n.submits[k]? with
  | none => exact h
  | some d =>
    -- the submission is the only description in progress
    obtain ⟨hk,hsubmits,hnone⟩ : k = 0 ∧ n.submits = [d] ∧ n.engine.description cx = [] := by
      have hlt := (List.getElem?_eq_some_iff.1 hget).1
      rw [pending, List.length_append] at hsingle
      have hk : k = 0 := by omega
      subst hk
      have hlen : n.submits.length = 1 := by omega
      obtain ⟨d',hd'⟩ := length_eq_one_iff.1 hlen
      rw [hd'] at hget
      cases hget
      exact ⟨rfl,hd',length_eq_zero_iff.1 (by omega)⟩
    subst hk
    have hd : n.pending = [d] := by rw [pending, hsubmits, hnone]; rfl
    have hread : ∀ i, i < chain.length → n.chain.blockHashByIndex i = chain.ids[i]? :=
      fun i hi => h.grove.kept.sound.holds.toHoldsTables.blockHashByIndex_eq hi
    cases hstep : d.step cx n.chain.blockHashByIndex with
    | none =>
      simp only [hstep]
      exact h.of_done hd hstep rfl rfl (by simp [pending, hsubmits, hnone]) rfl
    | some r =>
      obtain ⟨d',events⟩ := r
      simp only [hstep]
      exact h.of_step hread hd hstep rfl rfl (by simp [pending, hsubmits, hnone]) rfl

theorem of_accepted {report : AddReport} {chain' : MainChain cx} (applied : AppliedBlock)
    (hrest : n.AtRest) (hgrove : Grove cfg checkpoints now U m.chain chain')
    (hoff : OffTip m.chain.altBlocks chain') (hreports : Reports raw chain report chain')
    (houtcome : applied.outcome = report.outcome) (hblob : applied.blockBlob = raw.block)
    (hlowest : applied.lowestUnwound = report.unwound.getLast?.map UnwoundBlock.index)
    (happlied : m.applied = n.applied ++ [report.outcome])
    (hpending : m.pending = [.start cx applied]) (hstream : m.stream = n.stream) :
    Told U cfg checkpoints first m chain' := by
  obtain ⟨hrange,hfollow,htells⟩ := hreports.told houtcome hblob hlowest
  have hbefore := h.follows
  have hreported := h.reports
  rw [pending_eq_nil_iff.2 hrest, flatMap_nil, append_nil] at hbefore hreported
  refine ⟨hgrove.kept.inv.clock ▸ hgrove,hoff,by simp [hpending],?_,?_,?_⟩
  · intro d hd
    rw [hpending, mem_singleton] at hd
    exact hd ▸ hrange
  · rw [hpending, hstream, flatMap_singleton, followAll_append, hbefore, hfollow]
  · rw [hpending, hstream, flatMap_singleton, filterMap_append, hreported, htells,
      happlied, map_append]
    rfl

theorem of_refused
    (hgrove : Grove cfg checkpoints now U m.chain chain) (hoff : OffTip m.chain.altBlocks chain)
    (happlied : m.applied = n.applied) (hpending : m.pending = n.pending)
    (hstream : m.stream = n.stream) : Told U cfg checkpoints first m chain where
  grove := hgrove.kept.inv.clock ▸ hgrove
  offTip := hoff
  single := hpending ▸ h.single
  inRange := hpending ▸ h.inRange
  follows := by rw [hstream, hpending]; exact h.follows
  reports := by rw [hstream, hpending, happlied]; exact h.reports

end

variable (hU : UniqueIds cx U) (hT : UniqueTxIds cx U) (hfree : ReplayFree checkpoints U)
  (hserves : cfg.Serves) (h : Told U cfg checkpoints first n chain)
include hU hT hfree hserves h

theorem apply (hrest : n.AtRest) (hclock : n.chain.clock ≤ now) (hknown : raw ∈ U) :
    ∃ chain', Told U cfg checkpoints first (n.apply raw now) chain' := by
  have hspec := addBlockDetailed_reports hU hT hfree hserves (h.grove.atClock hclock) h.offTip hknown
  unfold SharedNode.apply
  rw [if_pos hrest.1]
  cases hrun : ChainState.addBlockDetailed cx raw (n.chain.atClock now) with
  | error e t =>
    obtain ⟨hgrove,hoff⟩ := hspec.of_error_of_eq hrun
    exact ⟨chain,h.of_refused hgrove hoff rfl rfl rfl⟩
  | ok report t =>
    obtain ⟨chain',hgrove,hoff,hreports⟩ := hspec.of_ok_of_eq hrun
    have hpending : (if report.outcome.status = .alternative then
        EngineCall.describing (.start cx (.ofReport raw report)) else
          .checking raw report).description cx = [.start cx (.ofReport raw report)] := by
      split <;> rfl
    refine ⟨chain',h.of_accepted (.ofReport raw report) hrest hgrove hoff hreports rfl rfl rfl rfl ?_
      rfl⟩
    rw [pending, hrest.2, append_nil]
    exact hpending

theorem submit (hrest : n.AtRest) (hclock : n.chain.clock ≤ now) {block : Bytes}
    (hknown : ∀ raw, n.submitted block = some raw → raw ∈ U) :
    ∃ chain', Told U cfg checkpoints first (n.submit block now) chain' := by
  unfold SharedNode.submit
  cases hraw : n.submitted block with
  | none => exact ⟨chain,h⟩
  | some raw =>
    have hblob : block = raw.block := by
      unfold submitted at hraw
      split at hraw
      · cases hraw
      · obtain ⟨blobs,_,rfl⟩ := Option.map_eq_some_iff.1 hraw
        rfl
    have hspec := addBlockDetailed_reports hU hT hfree hserves (h.grove.atClock hclock) h.offTip
      (hknown raw hraw)
    unfold addBlockWithPool
    dsimp only
    cases hparsed : BlockTemplate.fromBytes raw.block with
    | error e => exact ⟨chain,h.of_refused (h.grove.atClock hclock) h.offTip rfl rfl rfl⟩
    | ok template =>
      dsimp only
      cases hrun : ChainState.addBlockDetailed cx raw (n.chain.atClock now) with
      | error e t =>
        obtain ⟨hgrove,hoff⟩ := hspec.of_error_of_eq hrun
        exact ⟨chain,h.of_refused hgrove hoff rfl rfl rfl⟩
      | ok report t =>
        obtain ⟨chain',hgrove,hoff,hreports⟩ := hspec.of_ok_of_eq hrun
        have hpending : ∀ d : Describing, n.engine.description cx ++ (n.submits ++ [d]) = [d] := by
          intro d
          rw [hrest.1, hrest.2]
          rfl
        by_cases halt : report.outcome.status = .alternative
        · simp only [if_pos halt]
          exact ⟨chain',h.of_accepted (.ofUpdate block _) hrest hgrove hoff hreports rfl hblob rfl rfl
            (hpending _) rfl⟩
        · simp only [if_neg halt]
          exact ⟨chain',h.of_accepted (.ofUpdate block _) hrest hgrove hoff hreports rfl hblob rfl rfl
            (hpending _) rfl⟩

theorem step {e : SharedEvent}
    (horderly : n.Orderly e) (hknown : ∀ raw, n.offered e = some raw → raw ∈ U) :
    ∃ chain', Told U cfg checkpoints first (n.step e) chain' := by
  cases e with
  | tick now => exact ⟨chain,h.of_pool rfl rfl rfl rfl⟩
  | addTransaction blob source => exact ⟨chain,h.of_pool rfl rfl rfl rfl⟩
  | apply raw now => exact h.apply hU hT hfree hserves horderly.1 horderly.2 (hknown raw rfl)
  | engine => exact ⟨chain,h.engineStep⟩
  | submit block now => exact h.submit hU hT hfree hserves horderly.1 horderly.2 hknown
  | submitStep k => exact ⟨chain,h.submitStep k⟩

end Told

namespace SharedNode

variable {cx : Crypto}

def OrderlyRun : SharedNode cx → List SharedEvent → Prop
  | _, [] => True
  | n, e :: events => n.Orderly e ∧ (n.step e).OrderlyRun events

instance decidableOrderlyRun : (n : SharedNode cx) → (events : List SharedEvent) →
    Decidable (n.OrderlyRun events)
  | _, [] => inferInstanceAs (Decidable True)
  | n, e :: events =>
    haveI := decidableOrderlyRun (n.step e) events
    inferInstanceAs (Decidable (_ ∧ _))

variable {before after : List SharedEvent} {n : SharedNode cx}

theorem OrderlyRun.of_append (h : n.OrderlyRun (before ++ after)) : n.OrderlyRun before := by
  induction before generalizing n with
  | nil => trivial
  | cons e before ih => exact ⟨h.1,ih h.2⟩

theorem mem_offers_append {raw : RawBlock}
    (h : raw ∈ n.offers before) : raw ∈ n.offers (before ++ after) := by
  induction before generalizing n with
  | nil => cases h
  | cons e before ih =>
    rw [offers, mem_append] at h
    rw [cons_append, offers, mem_append]
    exact h.imp_right ih

theorem step_stream (n : SharedNode cx) (e : SharedEvent) :
    ∃ events, (n.step e).stream = n.stream ++ events := by
  cases e with
  | tick now | addTransaction blob source => exact ⟨[],(append_nil _).symm⟩
  | apply raw now =>
    refine ⟨[],?_⟩
    simp only [step, apply, append_nil]
    split
    · split <;> rfl
    · rfl
  | engine =>
    simp only [step, engineStep]
    cases n.engine with
    | describing d =>
      dsimp only
      split
      · exact ⟨_,rfl⟩
      · exact ⟨[],(append_nil _).symm⟩
    | idle | checking raw report | mined raw report | switched raw report | unwound raw report
    | cleaning raw report => exact ⟨[],(append_nil _).symm⟩
  | submit block now =>
    refine ⟨[],?_⟩
    simp only [step, submit, append_nil]
    split
    · rfl
    · split <;> rfl
  | submitStep k =>
    simp only [step, submitStep]
    split
    · exact ⟨[],(append_nil _).symm⟩
    · split
      · exact ⟨_,rfl⟩
      · exact ⟨[],(append_nil _).symm⟩

theorem run_stream (n : SharedNode cx) (events : List SharedEvent) :
    n.stream <+: (n.run events).stream := by
  induction events generalizing n with
  | nil => exact prefix_refl _
  | cons e events ih =>
    obtain ⟨published,hstep⟩ := n.step_stream e
    exact (prefix_append n.stream published).trans (hstep ▸ ih (n.step e))

end SharedNode

namespace Told

variable {cx : Crypto} {U : Set RawBlock} {cfg : Config} {checkpoints : Checkpoints}
  {first : List Hash} {n : SharedNode cx} {chain : MainChain cx}

theorem run (hU : UniqueIds cx U) (hT : UniqueTxIds cx U) (hfree : ReplayFree checkpoints U)
    (hserves : cfg.Serves) (h : Told U cfg checkpoints first n chain) {events : List SharedEvent}
    (horderly : n.OrderlyRun events) (hknown : ∀ raw ∈ n.offers events, raw ∈ U) :
    ∃ chain', Told U cfg checkpoints first (n.run events) chain' := by
  induction events generalizing n chain with
  | nil => exact ⟨chain,h⟩
  | cons e events ih =>
    obtain ⟨chain₁,h₁⟩ := h.step hU hT hfree hserves horderly.1
      (fun raw hraw => hknown raw (by simp [offers, hraw]))
    exact ih h₁ horderly.2 fun raw hraw => hknown raw (by simp [offers, hraw])

theorem at_rest (h : Told U cfg checkpoints first n chain) (hrest : n.AtRest) :
    followAll first n.stream = n.chain.mainHashes ∧
      n.stream.filterMap tells = n.applied.map AddOutcome.told := by
  have hfollows := h.follows
  have hreports := h.reports
  rw [pending_eq_nil_iff.2 hrest, flatMap_nil, append_nil] at hfollows hreports
  have hsound := h.grove.kept.sound
  rw [hsound.holds.toHoldsTables.mainHashes_eq hsound.nonempty]
  exact ⟨hfollows,hreports⟩

end Told

/-- The chain of a node that has just started: the alternative blocks are not on disk. -/
def ChainState.restarted (s : ChainState) : ChainState := { s with altBlocks := ∅, unwound := [] }

theorem start_told {cx : Crypto} {cfg : Config} {checkpoints : Checkpoints} {clock : Nat}
    {s₀ : ChainState} {calls : List Call} {raws : List RawBlock}
    (hopen : ChainState.openOrGenesis cx cfg checkpoints clock = .ok ⟨⟩ s₀)
    (hmono : (clock :: calls.map Call.now).Pairwise (· ≤ ·)) (hU : UniqueIds cx (blocksOf cx raws))
    (hT : UniqueTxIds cx (blocksOf cx raws)) (hfree : ReplayFree checkpoints (blocksOf cx raws))
    (hknown : ∀ call ∈ calls, ∀ raw, call.raw? = some raw → raw ∈ raws) (poolCfg : PoolConfig) :
    ∃ chain : MainChain cx, Told (blocksOf cx raws) cfg checkpoints chain.ids
      (start cx (runCalls cx calls s₀).restarted poolCfg) chain := by
  obtain ⟨g,hg,hs⟩ := openOrGenesis_eq hopen
  have hgenesis := (genesis_grove hg cfg checkpoints clock raws hs).kept
  obtain ⟨chain,last,_,hkept⟩ := runCalls_kept_of_clock hU
    (fun now => stable_settled cfg now hT hfree) (fun now => rewindable_settled cfg checkpoints now)
    (fun hle h => h.atClock hle) (fun call hcall raw hraw => .inl (hknown call hcall raw hraw)) hmono
    hgenesis
  have halts : AltsSound cx (blocksOf cx raws) ∅ := by
    intro x alt halt
    cases halt
  have hstart := hkept.branches (stable_settled cfg last hT hfree) halts []
  have hgrove : Grove cfg checkpoints last (blocksOf cx raws) (runCalls cx calls s₀).restarted chain :=
    ⟨hstart,.empty⟩
  refine ⟨chain,hgrove.kept.inv.clock ▸ hgrove,?_,?_,?_,rfl,rfl⟩
  · intro x a ha
    cases ha
  · exact Nat.zero_le 1
  · intro d hd
    cases hd

/-- A listener that starts with the main chain of a node at rest has the main chain each
time the node is at rest again, and every block has been reported as what it was, provided
that each block is handed over at rest and with a clock that does not go back. -/
theorem stream_follows_chain {cx : Crypto} {cfg : Config} {checkpoints : Checkpoints} {clock : Nat}
    {s₀ : ChainState} {calls : List Call} {poolCfg : PoolConfig} {before after : List SharedEvent}
    {raws : List RawBlock} (hserves : cfg.Serves)
    (hopen : ChainState.openOrGenesis cx cfg checkpoints clock = .ok ⟨⟩ s₀)
    (hmono : (clock :: calls.map Call.now).Pairwise (· ≤ ·))
    (hraws : calls.filterMap Call.raw? ++ (start cx (runCalls cx calls s₀).restarted
      poolCfg).offers (before ++ after) = raws)
    (hU : UniqueIds cx (blocksOf cx raws)) (hT : UniqueTxIds cx (blocksOf cx raws))
    (hfree : ReplayFree checkpoints (blocksOf cx raws))
    (horderly : (start cx (runCalls cx calls s₀).restarted poolCfg).OrderlyRun
      (before ++ after)) :
    let m := (start cx (runCalls cx calls s₀).restarted poolCfg).run before
    let n := (start cx (runCalls cx calls s₀).restarted poolCfg).run (before ++ after)
    m.AtRest → n.AtRest →
      followAll m.chain.mainHashes (n.stream.drop m.stream.length) = n.chain.mainHashes ∧
      n.stream.filterMap tells = n.applied.map AddOutcome.told := by
  intro m n hm hn
  obtain ⟨chain,hstart⟩ := start_told hopen hmono hU hT hfree
    (fun call hcall raw hraw => by
      rw [← hraws]
      exact List.mem_append_left _ (List.mem_filterMap.2 ⟨call,hcall,hraw⟩)) poolCfg
  have hknown : ∀ raw ∈ (start cx (runCalls cx calls s₀).restarted poolCfg).offers
      (before ++ after), raw ∈ blocksOf cx raws :=
    fun raw hraw => .inl (hraws ▸ List.mem_append_right _ hraw)
  obtain ⟨chainM,hM⟩ := hstart.run hU hT hfree hserves horderly.of_append
    fun raw hraw => hknown raw (mem_offers_append hraw)
  obtain ⟨chainN,hN⟩ := hstart.run hU hT hfree hserves horderly hknown
  have hsplit : n = m.run after := List.foldl_append
  obtain ⟨published,hpublished⟩ := hsplit ▸ m.run_stream after
  obtain ⟨hfollow,htells⟩ := hN.at_rest hn
  refine ⟨?_,htells⟩
  rw [← hfollow, ← (hM.at_rest hm).1]
  change _ = followAll _ n.stream
  rw [← hpublished, List.drop_left, followAll_append]

/-- The blocks of a schedule in which each is described before the next. -/
def sampleOrderly : List SharedEvent :=
  sampleMain.flatMap (fun offer => .apply offer.2 offer.1 :: List.replicate 8 .engine) ++
    sampleHeavyBranch.flatMap (fun offer =>
      .submit offer.2.block offer.1 :: List.replicate 10 (.submitStep 0))

def sampleDaemon : SharedNode sampleCrypto :=
  start sampleCrypto
    (runCalls sampleCrypto [] (sampleNode sampleServing .none 1000)).restarted samplePoolConfig

/-- A main chain of four blocks gives way to three heavier ones: four blocks are told, two
alternative blocks and the switch. -/
theorem stream_follows_chain_sample :
    let m := sampleDaemon.run []
    let n := sampleDaemon.run ([] ++ sampleOrderly)
    (n.AtRest ∧ n.stream.length = 7 ∧ n.chain.mainHashes.length = 4) ∧
      followAll m.chain.mainHashes (n.stream.drop m.stream.length) = n.chain.mainHashes ∧
      n.stream.filterMap tells = n.applied.map AddOutcome.told := by
  intro m n
  have hrest : n.AtRest ∧ n.stream.length = 7 ∧ n.chain.mainHashes.length = 4 := by decide +kernel
  refine ⟨hrest,?_⟩
  exact @stream_follows_chain sampleCrypto sampleServing .none 1000 _ [] samplePoolConfig []
    sampleOrderly _ ⟨rfl,rfl⟩ (sampleNode_open sampleServing .none 1000) (by decide) rfl
    (by decide +kernel) (by decide +kernel) (.of_noZone _ Checkpoints.none_isInCheckpointZone)
    (by decide +kernel) (by decide +kernel) hrest.1

/-- The engine adds a block and lets go of the chain. Before it describes the block, two
submitted blocks replace it and are described. -/
def sampleOvertaken : List SharedEvent :=
  (sampleMain.take 1).map (fun offer => .apply offer.2 offer.1) ++
    (sampleHeavyBranch.take 2).flatMap (fun offer =>
      .submit offer.2.block offer.1 :: List.replicate 10 (.submitStep 0)) ++
    List.replicate 8 .engine

/-- The listener is told of the block last and is left with it at the tip. -/
theorem stream_overtaken :
    let n := sampleDaemon.run sampleOvertaken
    n.AtRest ∧ followAll sampleDaemon.chain.mainHashes n.stream ≠ n.chain.mainHashes := by
  decide +kernel

end Wrkz
