import Wrkz.Chain.Sample
import Wrkz.Library.Handler
import Wrkz.Node.Peers

/-!
A connection that is synchronizing waits for something: the answer to a chain request or
to a get-objects request, with a deadline. Two kinds of get-objects answers end a request
without starting the next one, and leave the connection and its sync slot parked; while
none of them arrives, no run parks a connection.
-/

set_option autoImplicit false

namespace Wrkz

open Library

def PeerCtx.Waits (c : PeerCtx) : Prop :=
  c.state = .synchronizing → c.chainRequestDeadline.isSome ∨ c.objectsDeadline.isSome

theorem PeerCtx.Waits.of_state {c : PeerCtx} (h : c.state ≠ .synchronizing) : c.Waits :=
  fun hs => absurd hs h

theorem PeerCtx.Waits.of_chain {c : PeerCtx} (h : c.chainRequestDeadline.isSome) : c.Waits :=
  fun _ => .inl h

namespace Node

variable {cx : Crypto} {n : Node cx} {id : ConnId}

/-- The engine has stopped, or every synchronizing connection waits for an answer. -/
def Waiting (n : Node cx) : Prop := n.stop = true ∨ All PeerCtx.Waits n

theorem Waiting.updateCtx {f : PeerCtx → PeerCtx} (h : Waiting n)
    (hf : ∀ c : PeerCtx, c.Waits → (f c).Waits) : Waiting (n.updateCtx id f) := by
  rcases h with hstop | hall
  · exact .inl (by rw [updateCtx_stop]; exact hstop)
  · exact .inr (hall.updateCtx hf)

theorem requestChain_waiting (h : AllBut id PeerCtx.Waits n) :
    Waiting (n.requestChainIfPeerCanServe id) := by
  unfold requestChainIfPeerCanServe
  cases hc : n.ctx? id with
  | none => exact .inr (h.close fun c hc' => by rw [hc] at hc'; cases hc')
  | some c =>
    dsimp only
    split_ifs with hdead hserve
    · refine .inr (h.close_updateCtx fun c' hc' => ?_)
      rw [hc] at hc'
      cases hc'
      exact .of_chain hdead
    · exact .inr (h.close_updateCtx fun c' _ => .of_state (by simp))
    · split
      · exact .inl rfl
      · exact .inr ((h.updateCtx.close_updateCtx fun c' _ => .of_chain rfl).post _)

theorem takeBatch_eq_nil {held : Hash → Bool} {needed : List Hash} {batch : Nat} (hb : 1 ≤ batch)
    (h : (takeBatch held needed batch).1 = []) : ∀ hash ∈ needed, held hash = true := by
  obtain ⟨b,rfl⟩ := Nat.exists_eq_add_of_le' hb
  induction needed with
  | nil => simp
  | cons hash rest ih =>
    unfold takeBatch at h
    by_cases hheld : held hash
    · rw [if_pos hheld] at h
      simpa [hheld] using ih h
    · rw [if_neg hheld] at h
      cases h

variable {blocks : List RawBlock} {sync : CoreSyncData} {initial : Bool} {frame : Frame}
  {check : Bool} {c : PeerCtx}

theorem requestBatch_waits (h : AllBut id PeerCtx.Waits n)
    (hc : n.ctx? id = some c) (hneeded : c.neededObjects ≠ [])
    (hwork : c.state = .synchronizing → c.chainRequestDeadline = none →
      ∃ hash ∈ c.neededObjects, (check && n.chain.hasBlock hash) = false) :
    All PeerCtx.Waits (n.requestMissingObjects id check) := by
  unfold requestMissingObjects
  rw [hc]
  dsimp only
  rw [if_pos hneeded]
  split_ifs with hrequest
  · refine h.close_updateCtx fun c' hc' hs => .inl ?_
    rw [hc] at hc'
    cases hc'
    by_contra hchain
    obtain ⟨hash,hmem,hfree⟩ := hwork hs (Option.not_isSome_iff_eq_none.1 hchain)
    have hheld := takeBatch_eq_nil (c.batchSize_pos _) hrequest hash hmem
    rw [hfree] at hheld
    cases hheld
  · exact (h.updateCtx.close_updateCtx fun c' _ _ => .inr rfl).post _

theorem requestMissingObjects_waiting (h : AllBut id PeerCtx.Waits n)
    (hwork : ∀ c, n.ctx? id = some c → c.neededObjects ≠ [] → c.state = .synchronizing →
      c.chainRequestDeadline = none →
      ∃ hash ∈ c.neededObjects, (check && n.chain.hasBlock hash) = false) :
    Waiting (n.requestMissingObjects id check) := by
  cases hc : n.ctx? id with
  | none =>
    unfold requestMissingObjects
    rw [hc]
    exact .inr (h.close fun c hc' => by rw [hc] at hc'; cases hc')
  | some c =>
    by_cases hneeded : c.neededObjects ≠ []
    · exact .inr (requestBatch_waits h hc hneeded (hwork c hc hneeded))
    unfold requestMissingObjects
    rw [hc]
    dsimp only
    rw [if_neg hneeded]
    split_ifs
    · exact requestChain_waiting h
    · refine .inr (All.of_subset (n := ((n.requestMissingPoolTransactions id).updateCtx id fun c =>
        { c with state := .normal })) ?_ fun id' c' hc' => by
          rwa [ctx?_onConnectionSynchronized] at hc')
      have hasked : AllBut id PeerCtx.Waits (n.requestMissingPoolTransactions id) := h.post _
      exact hasked.close_updateCtx fun c' _ => .of_state (by simp)

/-- What the requests of a connection are told by, its count of blocks apart. -/
structure SameWait (c c' : PeerCtx) : Prop where
  state : c'.state = c.state
  chainDeadline : c'.chainRequestDeadline = c.chainRequestDeadline
  objectsDeadline : c'.objectsDeadline = c.objectsDeadline
  needed : c'.neededObjects = c.neededObjects

theorem SameWait.waits {c c' : PeerCtx} (h : SameWait c c') (hc : c.Waits) : c'.Waits := by
  intro hs
  rw [h.chainDeadline, h.objectsDeadline]
  exact hc (h.state ▸ hs)

theorem processObjects_waiting (blocks : List RawBlock) (h : AllBut id PeerCtx.Waits n) :
    ((processObjects id blocks n).1 = .stop → Waiting (processObjects id blocks n).2) ∧
    ((processObjects id blocks n).1 = .continue → AllBut id PeerCtx.Waits
        (processObjects id blocks n).2 ∧ ∀ c', (processObjects id blocks n).2.ctx? id = some c' →
        ∃ c, n.ctx? id = some c ∧ SameWait c c') := by
  induction blocks generalizing n with
  | nil => exact ⟨(by intro hstop; cases hstop),fun _ => ⟨h,fun c hc => ⟨c,hc,rfl,rfl,rfl,rfl⟩⟩⟩
  | cons raw rest ih =>
    have happlied := h.applyBlock raw
    have hctx : (n.applyBlock raw).2.ctx? id = n.ctx? id := applyBlock_ctx? raw
    unfold processObjects
    generalize n.applyBlock raw = applied at happlied hctx
    obtain ⟨outcome,n1⟩ := applied
    dsimp only at happlied hctx
    match outcome with
    | .ok outcome =>
      obtain ⟨hstop,hgo⟩ := ih (happlied.updateCtx
        (f := fun c => { c with blocksAdded := c.blocksAdded + 1 }))
      refine ⟨hstop,fun hcont => ⟨(hgo hcont).1,fun c' hc' => ?_⟩⟩
      obtain ⟨c,hc,hsame⟩ := (hgo hcont).2 c' hc'
      rw [ctx?_updateCtx_self, hctx] at hc
      obtain ⟨c0,hc0,rfl⟩ := Option.map_eq_some_iff.1 hc
      exact ⟨c0,hc0,hsame.state,hsame.chainDeadline,hsame.objectsDeadline,hsame.needed⟩
    | .error (.rule rule) =>
      cases rule
      case alreadyExists =>
        exact ⟨fun _ => .inr (happlied.close_updateCtx fun c _ => .of_state (by simp)),
          (by intro hcont; cases hcont)⟩
      case rejectedAsOrphaned =>
        dsimp only
        cases hc : n1.ctx? id with
        | none =>
          exact ⟨fun _ => .inr (happlied.close fun c hc' => by rw [hc] at hc'; cases hc'),
            (by intro hcont; cases hcont)⟩
        | some c =>
          dsimp only
          split_ifs
          · exact ⟨fun _ => .inr happlied.updateCtx.close_dropPeer,(by intro hcont; cases hcont)⟩
          · exact ⟨fun _ => requestChain_waiting happlied.updateCtx,(by intro hcont; cases hcont)⟩
      all_goals exact ⟨fun _ => .inr (happlied.close_failPeer _),(by intro hcont; cases hcont)⟩
    | .error (.corrupt what) => exact ⟨fun _ => .inl rfl,(by intro hcont; cases hcont)⟩

/-- How a handler leaves the connections: the one it fails is closed next. -/
abbrev HandlesWaiting (id : ConnId) (m : NodeM cx PUnit) (n : Node cx) : Prop :=
  Ensures m n (fun _ => Waiting) fun _ => AllBut id PeerCtx.Waits

/-- An answer that ends a request of a synchronizing connection starts another: it is not
thrown away as the answer to an abandoned batch, and one of the ids still to be asked for
is not held. -/
def AnswerGoesOn (n : Node cx) (c : PeerCtx) : Prop :=
  c.state = .synchronizing → c.chainRequestDeadline = none →
    c.discardNextObjectsResponse = false ∧
      (c.neededObjects ≠ [] → ∃ hash ∈ c.neededObjects, n.chain.hasBlock hash = false)

theorem applyBatch_waiting {pipelined : Bool} (h : AllBut id PeerCtx.Waits n)
    (hpipe : pipelined = true → All PeerCtx.Waits n)
    (hnone : pipelined = false → ∀ c, n.ctx? id = some c → c.state = .synchronizing →
      c.neededObjects = []) : Waiting (applyBatch id blocks pipelined n) := by
  unfold applyBatch
  dsimp only
  generalize hn1 : (n.updateCtx id fun c => { c with pipelinedObjectsOutstanding := pipelined }) = n1
  have h1 : AllBut id PeerCtx.Waits n1 := hn1 ▸ h.updateCtx
  obtain ⟨hstop,hgo⟩ := processObjects_waiting blocks h1
  cases houtcome : (processObjects id blocks n1).1 with
  | stop => exact (hstop houtcome).updateCtx fun c hc => hc
  | «continue» =>
    obtain ⟨hrest,hsame⟩ := hgo houtcome
    dsimp only
    generalize hn3 : ((processObjects id blocks n1).2.updateCtx id fun c =>
      { c with pipelinedObjectsOutstanding := false }).updateCtx id
      (fun c => { c with syncFailures := 0, orphanRetries := 0 }) = n3
    have h3 : AllBut id PeerCtx.Waits n3 := hn3 ▸ hrest.updateCtx.updateCtx
    -- the connection is as it was before the batch, in what it waits for
    have hsame3 : ∀ c', n3.ctx? id = some c' → ∃ c, n.ctx? id = some c ∧ SameWait c c' := by
      intro c' hc'
      rw [← hn3, ctx?_updateCtx_self, ctx?_updateCtx_self, Option.map_map] at hc'
      obtain ⟨c2,hc2,rfl⟩ := Option.map_eq_some_iff.1 hc'
      obtain ⟨c1,hc1,hsame1⟩ := hsame c2 hc2
      rw [← hn1, ctx?_updateCtx_self] at hc1
      obtain ⟨c0,hc0,rfl⟩ := Option.map_eq_some_iff.1 hc1
      exact ⟨c0,hc0,hsame1.state,hsame1.chainDeadline,hsame1.objectsDeadline,hsame1.needed⟩
    split_ifs with hmore
    · refine requestMissingObjects_waiting h3 fun c' hc' hneeded hs => ?_
      obtain ⟨c,hc,hcc⟩ := hsame3 c' hc'
      rw [hcc.needed, hnone hmore.1 c hc (hcc.state ▸ hs)] at hneeded
      exact absurd rfl hneeded
    · refine .inr (h3.close fun c' hc' => ?_)
      obtain ⟨c,hc,hcc⟩ := hsame3 c' hc'
      cases pipelined with
      | true => exact hcc.waits (hpipe rfl id c hc)
      | false =>
        refine .of_state fun hs => hmore ⟨rfl,?_⟩
        rw [hc', Option.map_some, hs]

instance (n : Node cx) (c : PeerCtx) : Decidable (AnswerGoesOn n c) :=
  inferInstanceAs (Decidable (_ → _ → _ ∧ (_ → _)))

section

variable (h : AllBut id PeerCtx.Waits n)
include h

theorem takeBlocks_waiting
    (hon : ∀ c, n.ctx? id = some c → c.state = .synchronizing → c.chainRequestDeadline = none →
      c.neededObjects ≠ [] → ∃ hash ∈ c.neededObjects, n.chain.hasBlock hash = false) :
    Waiting (takeBlocks id blocks n) := by
  unfold takeBlocks
  dsimp only
  generalize hn1 : (n.updateCtx id fun c =>
    c.onChunkSuccess blocks.length (rawBytes blocks) n.cfg.tuning n.instant) = n1
  have h1 : AllBut id PeerCtx.Waits n1 := hn1 ▸ h.updateCtx
  have hon1 : ∀ c, n1.ctx? id = some c → c.state = .synchronizing →
      c.chainRequestDeadline = none → c.neededObjects ≠ [] →
      ∃ hash ∈ c.neededObjects, n1.chain.hasBlock hash = false := by
    intro c hc
    rw [← hn1, ctx?_updateCtx_self] at hc
    obtain ⟨c0,hc0,rfl⟩ := Option.map_eq_some_iff.1 hc
    have hsame := c0.onChunkSuccess_same blocks.length (rawBytes blocks) n.cfg.tuning n.instant
    rw [PeerCtx.onChunkSuccess_state, hsame.needed, hsame.chainDeadline, ← hn1, updateCtx_chain]
    exact hon c0 hc0
  split_ifs with hpipe
  · obtain ⟨c,hc,hnow⟩ := (Option.any_eq_true _ _).1 hpipe
    obtain ⟨hneeded,hs⟩ := of_decide_eq_true hnow
    have hall : All PeerCtx.Waits (n1.requestMissingObjects id true) :=
      requestBatch_waits h1 hc hneeded fun _ hchain => by
        simpa using hon1 c hc hs hchain hneeded
    exact applyBatch_waiting hall.but (fun _ => hall) (by intro hfalse; cases hfalse)
  · refine applyBatch_waiting h1 (by intro htrue; cases htrue) fun _ c hc hs => ?_
    by_contra hneeded
    exact hpipe ((Option.any_eq_true _ _).2 ⟨c,hc,decide_eq_true ⟨hneeded,hs⟩⟩)

theorem responseGetObjects_waiting {response : Option GetObjectsResponse}
    (hon : ∀ c, n.ctx? id = some c → AnswerGoesOn n c) :
    HandlesWaiting id (handleResponseGetObjects id response) n := by
  unfold HandlesWaiting handleResponseGetObjects
  refine ensures_peerCtx (fun _ => h) fun c hc => .modify_bind ?_
  have h1 : AllBut id PeerCtx.Waits (n.updateCtx id fun c => { c with objectsDeadline := none }) :=
    h.updateCtx
  by_cases hdiscard : c.discardNextObjectsResponse
  · rw [if_pos hdiscard]
    refine .of_modify (.inr (h1.close_updateCtx fun c' hc' hs => .inl ?_))
    rw [ctx?_updateCtx_self, hc] at hc'
    cases hc'
    by_contra hnone
    have hflag := (hon c hc hs (Option.not_isSome_iff_eq_none.1 hnone)).1
    rw [hflag] at hdiscard
    cases hdiscard
  rw [if_neg hdiscard]
  by_cases hdead : c.objectsDeadline = none
  · rw [if_pos hdead]
    exact h1
  rw [if_neg hdead]
  refine ensures_readOr (fun _ => h1) fun r _ => ?_
  by_cases hlow : r.currentBlockchainHeight < c.lastResponseHeight
  · rw [if_pos hlow]
    exact h1
  rw [if_neg hlow]
  refine .modify_bind ?_
  cases checkBlocks cx r.blocks c.requestedObjects with
  | error e => exact h1.updateCtx
  | ok outstanding =>
    refine .modify_bind (.get_bind ?_)
    by_cases hout : outstanding ≠ []
    · rw [if_pos hout]
      refine .modify_bind ?_
      have h2 := (h1.updateCtx (f := fun c => { c with
        remoteHeight := max c.remoteHeight r.currentBlockchainHeight })).recalculate
      by_cases hmissed : ¬ ∀ hash ∈ outstanding, hash ∈ r.missedIds
      · rw [if_pos hmissed]
        exact h2.updateCtx.updateCtx
      rw [if_neg hmissed]
      split_ifs
      · exact h2.updateCtx.updateCtx
      · exact .of_modify (requestChain_waiting h2.updateCtx.updateCtx)
    · rw [if_neg hout]
      refine .of_modify (takeBlocks_waiting h1.updateCtx.recalculate.updateCtx ?_)
      intro c' hc'
      rw [ctx?_updateCtx_self, ctx?_recalculateObservedHeight, ctx?_updateCtx_self,
        ctx?_updateCtx_self, hc] at hc'
      cases hc'
      simp only [updateCtx_chain, recalculateObservedHeight_chain]
      exact fun hs hchain => (hon c hc hs hchain).2

theorem responseChainEntry_waiting {payload : Bytes} (hid : ∀ c, n.ctx? id = some c → c.Waits) :
    HandlesWaiting id (handleResponseChainEntry id payload) n := by
  unfold HandlesWaiting handleResponseChainEntry
  refine ensures_peerCtx (fun _ => h) fun c hc => .modify_bind ?_
  have h1 : AllBut id PeerCtx.Waits
      (n.updateCtx id fun c => { c with chainRequestDeadline := none }) := h.updateCtx
  by_cases hdead : c.chainRequestDeadline = none
  · rw [if_pos hdead]
    split_ifs
    · refine .of_modify (.inr (h1.close_updateCtx fun c' hc' hs => ?_))
      rw [ctx?_updateCtx_self, hc] at hc'
      cases hc'
      exact .inr ((hid c hc hs).resolve_left (by rw [hdead]; simp))
    · exact h1
  rw [if_neg hdead]
  refine ensures_readOr (fun _ => h1) fun entry _ => .get_bind ?_
  split_ifs
  · exact h1
  · refine .modify_bind ?_
    split_ifs
    · exact h1.updateCtx
    · refine .modify_bind (.of_modify ?_)
      refine requestMissingObjects_waiting (h1.updateCtx.updateCtx).recalculate ?_
      intro c' _ hneeded _ _
      obtain ⟨hash,rest,heq⟩ := List.exists_cons_of_ne_nil hneeded
      exact ⟨hash,by rw [heq]; exact List.mem_cons_self,rfl⟩

end

theorem stateAfterSyncData_ne
    (h : c.state ≠ .synchronizing) : n.stateAfterSyncData id c sync initial ≠ .synchronizing := by
  unfold stateAfterSyncData
  rw [if_neg h]
  dsimp only
  split_ifs <;> simp

theorem All.processPayloadSyncData
    (h : All PeerCtx.Waits n) : All PeerCtx.Waits (n.processPayloadSyncData id sync initial) := by
  unfold Node.processPayloadSyncData
  cases hc : n.ctx? id with
  | none => exact h
  | some c =>
    dsimp only
    generalize hc1 : (if initial then (c.recordCapabilities sync).resetSyncCounters n.cfg.tuning
      n.instant else c.recordCapabilities sync) = c1
    have hstate : c1.state = c.state := by rw [← hc1]; split_ifs <;> rfl
    have hchain : c1.chainRequestDeadline = c.chainRequestDeadline := by
      rw [← hc1]; split_ifs <;> rfl
    have hobjects : c1.objectsDeadline = c.objectsDeadline := by rw [← hc1]; split_ifs <;> rfl
    have hwaits : c1.Waits := by
      intro hs
      rw [hchain, hobjects]
      exact h id c hc (hstate ▸ hs)
    have hall : All PeerCtx.Waits (n.updateCtx id fun _ => { c1 with
        state := n.stateAfterSyncData id c1 sync initial
        remoteHeight := sync.currentHeight }) := by
      refine h.but.close_updateCtx fun _ _ => ?_
      by_cases hs : c1.state = .synchronizing
      · exact fun _ => hwaits hs
      · exact .of_state (stateAfterSyncData_ne hs)
    split_ifs
    · exact h.but.close_updateCtx fun _ _ => hwaits
    · exact hall.of_subset fun id' c' hc' => by rwa [ctx?_onConnectionSynchronized] at hc'
    · exact hall

theorem All.notifyObjects {P : PeerCtx → Prop} {response : GetObjectsResponse} {n' : Node cx}
    (h : All P n) (heq : n.notifyObjects id response = .ok n') : All P n' :=
  h.of_subset fun id' c hc => by rwa [ctx?_notifyObjects heq] at hc

section

variable (h : All PeerCtx.Waits n)
include h

theorem All.serveDeferredObjectsFor (id : ConnId) :
    All PeerCtx.Waits (n.serveDeferredObjectsFor id) := by
  unfold Node.serveDeferredObjectsFor
  split
  · exact h
  · split_ifs
    · exact h
    · split
      · exact h
      · have h1 : All PeerCtx.Waits
            (n.updateCtx id fun c => { c with deferredObjectsRequest := none }) :=
          h.updateCtx fun c hc => hc
        dsimp only
        split
        · next heq => exact h1.notifyObjects heq
        · exact h1.but.close_failPeer _

theorem All.pumpState : Waiting (n.pumpState id) := by
  unfold Node.pumpState
  have h1 := h.serveDeferredObjectsFor id
  dsimp only
  split
  · exact requestChain_waiting h1.but
  · exact .inr ((h1.but.close_updateCtx fun c _ => .of_state (by simp)).post _)
  · exact .inr h1

theorem afterRelayed_waiting {outcome : Except ChainError AddOutcome} {theirs : Nat}
    {context : String} {relay : Node cx → Node cx}
    (hrelay : ∀ n, All PeerCtx.Waits n → All PeerCtx.Waits (relay n)) :
    HandlesWaiting id (afterRelayed id outcome theirs context relay) n := by
  unfold HandlesWaiting afterRelayed
  match outcome with
  | .ok outcome =>
    dsimp only
    split
    · exact .of_modify (.inr ((hrelay n h).post _))
    · exact .of_modify (.inr (hrelay n h))
    · refine .of_modify ?_
      split_ifs
      · exact requestChain_waiting h.but
      · exact .inr h
  | .error (.rule rule) =>
    cases rule
    case alreadyExists => exact .pure (.inr h)
    case rejectedAsOrphaned => exact .of_modify (requestChain_waiting h.but)
    all_goals exact h.but
  | .error (.corrupt what) => exact .of_modify (.inl rfl)

theorem noteHeight_waiting {height : Nat} {g : Bool → NodeM cx PUnit}
    (hg : ∀ b n, All PeerCtx.Waits n → HandlesWaiting id (g b) n) :
    HandlesWaiting id (noteHeight id height >>= g) n := by
  have hnoted : All PeerCtx.Waits (n.updateCtx id fun c => { c with remoteHeight := height }) :=
    h.updateCtx fun c hc => hc
  exact ensures_noteHeight (fun _ => h.but) fun _ _ => hg _ _ hnoted

theorem pushLiteBlock_waiting {lb : LiteBlock} {provided : List Bytes} :
    HandlesWaiting id (pushLiteBlock id lb provided) n := by
  unfold HandlesWaiting pushLiteBlock
  refine ensures_readOr (fun _ => h.but) fun template _ => ?_
  refine ensures_readOr (fun _ => h.but) fun hash _ => .get_bind ?_
  have hclear : All PeerCtx.Waits (clearPending id n) := h.updateCtx fun c hc => hc
  dsimp only
  generalize fillBlock (providedByHash cx provided) n.pool template.transactionHashes = filled
  obtain ⟨blobs,need⟩ := filled
  dsimp only
  split_ifs
  · exact .modify_bind hclear.but
  · exact .modify_bind hclear.but
  · have hpending : All PeerCtx.Waits (n.updateCtx id fun c =>
        { c with pendingLiteBlock := some ⟨lb,need⟩ }) := h.updateCtx fun c hc => hc
    exact .of_modify (.inr (hpending.post _))
  · refine .modify_bind (.modifyGet_bind ?_)
    exact afterRelayed_waiting (hclear.applyBlock _) fun n hn => hn.relayToAll _ _

theorem handler_waiting
    (hon : ∀ response, frame = .responseGetObjects response →
      ∀ c, n.ctx? id = some c → AnswerGoesOn n c) : HandlesWaiting id (handler id frame) n := by
  unfold handler
  cases frame with
  | handshake request =>
    unfold handleHandshake
    refine ensures_readOr (fun _ => h.but) fun hs _ => .get_bind ?_
    split_ifs
    · exact h.but
    · exact h.but
    · refine ensures_peerCtx (fun _ => h.but) fun c _ => ?_
      split_ifs
      · exact h.but
      · exact h.but
      · have hshaken : All PeerCtx.Waits (n.updateCtx id fun c =>
            { c with version := hs.version, handshakeDone := true }) := h.updateCtx fun c hc => hc
        refine .modify_bind (.modify_bind (.of_modify (.inr ?_)))
        exact hshaken.processPayloadSyncData.post _
  | timedSync sync =>
    unfold handleTimedSync
    refine ensures_readOr (fun _ => h.but) fun sync _ => ?_
    exact .modify_bind (.of_modify (.inr (h.processPayloadSyncData.post _)))
  | timedSyncResponse success listTaken sync =>
    unfold handleTimedSyncResponse
    refine ensures_peerCtx (fun _ => h.but) fun c _ => ?_
    by_cases hnone : c.timedSyncOutstanding = false
    · rw [if_pos hnone]
      exact h.but
    rw [if_neg hnone]
    have h1 : All PeerCtx.Waits (n.updateCtx id fun c => { c with timedSyncOutstanding := false }) :=
      h.updateCtx fun c hc => hc
    refine .modify_bind ?_
    by_cases hcode : success = false
    · rw [if_pos hcode]
      exact h1.but
    rw [if_neg hcode]
    refine ensures_readOr (fun _ => h1.but) fun sync _ => ?_
    split_ifs
    · exact h1.but
    · exact .of_modify (.inr h1.processPayloadSyncData)
  | ping => exact .of_modify (.inr (h.post _))
  | requestChain payload =>
    unfold handleRequestChain
    refine ensures_readOr (fun _ => h.but) fun ids _ => .get_bind ?_
    refine ensures_liftChain (fun _ => h.but) fun genesis _ => ?_
    split_ifs
    · exact h.but
    · refine ensures_readOr (fun _ => h.but) fun start _ => ?_
      refine ensures_liftChain (fun _ => h.but) fun hashes _ => ?_
      exact .of_modify (.inr (h.post _))
  | responseChainEntry payload => exact responseChainEntry_waiting h.but (h id)
  | requestGetObjects blocks =>
    unfold handleRequestGetObjects
    refine ensures_readOr (fun _ => h.but) fun wanted _ => .get_bind ?_
    refine ensures_readOr (fun _ => h.but) fun p _ => ?_
    split_ifs
    · exact h.but
    · have hheld : All PeerCtx.Waits (n.updateCtx id fun c =>
          { c with deferredObjectsRequest := some wanted }) := h.updateCtx fun c hc => hc
      exact .of_modify (.inr hheld)
    · split
      · next heq => exact .inr (h.notifyObjects heq)
      · exact h.but
  | responseGetObjects response => exact responseGetObjects_waiting h.but (hon response rfl)
  | requestTxPool payload =>
    unfold handleRequestTxPool
    refine ensures_readOr (fun _ => h.but) fun theirs _ => .of_modify (.inr ?_)
    exact List.foldlRecOn _ _ h fun _ hn _ _ => hn.post _
  | newBlock block =>
    unfold handleNotifyNewBlock
    refine ensures_readOr (fun _ => h.but) fun nb _ => noteHeight_waiting h fun normal n hn => ?_
    split_ifs
    · exact .pure (.inr hn)
    · refine .modifyGet_bind (afterRelayed_waiting (hn.applyBlock _) ?_)
      exact fun n hn => hn.relayBlock _
  | newLiteBlock block =>
    unfold handleNotifyNewLiteBlock
    refine ensures_readOr (fun _ => h.but) fun lb _ => noteHeight_waiting h fun normal n hn => ?_
    split_ifs
    · exact .pure (.inr hn)
    · exact pushLiteBlock_waiting hn
  | newTransactions txs =>
    unfold handleNotifyNewTransactions
    refine ensures_readOr (fun _ => h.but) fun txs _ => .get_bind ?_
    split_ifs
    · exact .pure (.inr h)
    · split
      · exact pushLiteBlock_waiting h
      · refine .of_modify (.inr (List.foldlRecOn _ _ ?_ fun _ hn _ _ => hn.relayToAll _ _))
        split_ifs
        · exact h.of_subset fun id' c hc => by rwa [ctx?_penalise] at hc
        · exact h
  | missingTxs request =>
    unfold handleNotifyMissingTxs
    refine ensures_readOr (fun _ => h.but) fun request _ => .get_bind ?_
    split
    · exact h.but
    · exact .inr (h.post _)
  | unknown haveToReturnData =>
    cases haveToReturnData with
    | true => exact (h.post _).but
    | false => exact h.but
  | unexpectedResponse => exact h.but

end

theorem requestChain_stop (h : n.stop = true) : (n.requestChainIfPeerCanServe id).stop = true := by
  unfold requestChainIfPeerCanServe
  split
  · exact h
  · dsimp only
    split_ifs
    · rw [updateCtx_stop]
      exact h
    · rw [updateCtx_stop]
      exact h
    · split
      · rfl
      · rw [post_stop, updateCtx_stop, updateCtx_stop]
        exact h

theorem serveDeferredObjectsFor_stop : (n.serveDeferredObjectsFor id).stop = n.stop := by
  unfold serveDeferredObjectsFor
  split
  · rfl
  · split_ifs
    · rfl
    · split
      · rfl
      · dsimp only
        split
        · next heq => rw [notifyObjects_stop heq, updateCtx_stop]
        · rw [failPeer_stop, updateCtx_stop]

theorem pumpState_stop (h : n.stop = true) : (n.pumpState id).stop = true := by
  unfold pumpState
  have h1 : (n.serveDeferredObjectsFor id).stop = true := by rw [serveDeferredObjectsFor_stop, h]
  dsimp only
  split
  · exact requestChain_stop h1
  · unfold requestMissingPoolTransactions
    rw [post_stop, updateCtx_stop]
    exact h1
  · exact h1

theorem Waiting.pumpState (h : Waiting n) : Waiting (n.pumpState id) := by
  rcases h with hstop | hall
  · exact .inl (pumpState_stop hstop)
  · exact hall.pumpState

theorem Waiting.handSyncToAnotherPeer (h : Waiting n) : Waiting (n.handSyncToAnotherPeer id) := by
  unfold Node.handSyncToAnotherPeer
  dsimp only
  split_ifs
  · exact h
  · split
    · exact h
    · next a _ =>
      exact (h.updateCtx (f := fun c => { c with state := .syncRequired })
        fun c _ => .of_state (by simp)).pumpState

theorem Waiting.onRequestTimeout (h : Waiting n) : Waiting (n.onRequestTimeout id) := by
  unfold Node.onRequestTimeout
  cases n.ctx? id with
  | none => exact h
  | some c =>
    dsimp only
    split_ifs with hdrop
    · refine Waiting.handSyncToAnotherPeer ?_
      rcases h with hstop | hall
      · exact .inl (by rw [dropPeer_stop, updateCtx_stop]; exact hstop)
      · exact .inr hall.but.updateCtx.close_dropPeer
    · exact (h.updateCtx fun c' _ => .of_state (by simp)).handSyncToAnotherPeer

theorem Waiting.onTick (h : Waiting n) : Waiting n.onTick := by
  have h1 : Waiting n.timedSync := by
    refine List.foldlRecOn _ _ h fun n hn id _ => ?_
    have h' : Waiting (n.updateCtx id fun c =>
        { c with lastTimedSync := n.instant, timedSyncOutstanding := true }) :=
      hn.updateCtx fun c hc => hc
    rcases h' with hstop | hall
    · exact .inl (by rw [post_stop]; exact hstop)
    · exact .inr (hall.post _)
  have h2 : Waiting n.timedSync.expireConnections := by
    refine List.foldlRecOn _ _ h1 fun n hn id _ => ?_
    rcases hn with hstop | hall
    · exact .inl hstop
    · exact .inr hall.but.close_dropPeer
  have h3 : Waiting n.timedSync.expireConnections.expireSyncRequests :=
    List.foldlRecOn _ _ h2 fun n hn id _ => hn.onRequestTimeout
  have h4 : Waiting n.timedSync.expireConnections.expireSyncRequests.serveDeferredObjects := by
    refine List.foldlRecOn _ _ h3 fun n hn id _ => ?_
    rcases hn with hstop | hall
    · exact .inl (by rw [serveDeferredObjectsFor_stop]; exact hstop)
    · exact .inr (hall.serveDeferredObjectsFor id)
  unfold Node.onTick
  rcases h4 with hstop | hall
  · exact .inl (by rw [checkSynchronized_stop]; exact hstop)
  · exact .inr (hall.of_subset fun id c hc => by rwa [ctx?_checkSynchronized] at hc)

/-- The event is no get-objects answer that parks its connection. -/
def NotParking (n : Node cx) : Event → Prop
  | .frame id (.responseGetObjects _) => ∀ c, n.ctx? id = some c → AnswerGoesOn n c
  | _ => True

instance (n : Node cx) : (e : Event) → Decidable (NotParking n e)
  | .frame id (.responseGetObjects _) => inferInstanceAs (Decidable (∀ c ∈ n.ctx? id, AnswerGoesOn n c))
  | .frame _ (.handshake _) | .frame _ (.timedSync _) | .frame _ (.timedSyncResponse _ _ _)
  | .frame _ .ping | .frame _ (.requestChain _) | .frame _ (.responseChainEntry _)
  | .frame _ (.requestGetObjects _) | .frame _ (.requestTxPool _) | .frame _ (.newBlock _)
  | .frame _ (.newLiteBlock _) | .frame _ (.newTransactions _) | .frame _ (.missingTxs _)
  | .frame _ (.unknown _) | .frame _ .unexpectedResponse | .established _ _ | .badFrame _ _
  | .closed _ | .sink _ _ | .tick => .isTrue trivial

theorem onFrame_waiting (h : All PeerCtx.Waits n)
    (hon : NotParking n (.frame id frame)) : Waiting (n.onFrame id frame) := by
  unfold onFrame
  cases hc : n.ctx? id with
  | none => exact .inr h
  | some c =>
    dsimp only
    have h1 : All PeerCtx.Waits (n.updateCtx id fun c => { c with lastFrame := n.instant }) :=
      h.updateCtx fun c hc => hc
    split_ifs
    · exact .inr (h1.but.close_failPeer _)
    · have hhandled : HandlesWaiting id (handler id frame)
          (n.updateCtx id fun c => { c with lastFrame := n.instant }) := by
        refine handler_waiting h1 fun response heq c' hc' => ?_
        subst heq
        rw [ctx?_updateCtx_self, hc] at hc'
        cases hc'
        intro hs hchain
        rw [updateCtx_chain]
        exact hon c hc hs hchain
      split
      · next heq => exact hhandled.of_ok_of_eq heq
      · next heq => exact .inr (AllBut.close_failPeer (hhandled.of_error_of_eq heq) _)

theorem handleEvent_waiting {e : Event} (h : All PeerCtx.Waits n) (hon : NotParking n e) :
    Waiting (n.handleEvent e) := by
  cases e with
  | established id e =>
    unfold handleEvent onEstablished
    dsimp only
    have hnew : All PeerCtx.Waits (n.setPeer id { ctx := .new e.incoming n.cfg.tuning n.instant }) := by
      refine AllBut.close (fun id' c hne hc => ?_ : AllBut id PeerCtx.Waits _) fun c hc => ?_
      · rw [ctx?_setPeer_ne _ hne] at hc
        exact h id' c hc
      · rw [ctx?_setPeer_self] at hc
        cases hc
        exact .of_state (by simp [PeerCtx.new])
    generalize (if e.incoming then n.cfg.maxIncoming else n.cfg.maxOutgoing) = cap
    split_ifs
    · exact .inr h
    · split
      · exact .inr hnew
      · next hs listTaken _ =>
        have hshaken : All PeerCtx.Waits ((n.setPeer id
            { ctx := .new e.incoming n.cfg.tuning n.instant }).updateCtx id fun c =>
              { c with version := hs.version, handshakeDone := true }) :=
          hnew.updateCtx fun c hc => hc
        split_ifs
        · exact .inr hnew.but.close_dropPeer
        · exact .inr hshaken.but.close_dropPeer
        · exact hshaken.processPayloadSyncData.pumpState
  | frame id frame => exact (onFrame_waiting h hon).pumpState
  | badFrame id offence =>
    refine .inr (AllBut.close_dropPeer (All.but ?_))
    exact h.of_subset fun id' c hc => by rwa [ctx?_penalise] at hc
  | closed id => exact .inr h.but.close_dropPeer
  | sink id sink =>
    refine .inr (h.of_subset fun id' c hc => ?_)
    unfold handleEvent at hc
    dsimp only at hc
    split at hc
    · exact hc
    · next p hp =>
      by_cases hid : id' = id
      · subst hid
        rw [ctx?_setPeer_self] at hc
        simpa [ctx?, hp] using hc
      · rwa [ctx?_setPeer_ne _ hid] at hc
  | tick => exact Waiting.onTick (.inr h)

theorem step_waiting {e : Moment × Event} (h : Waiting n) (hon : NotParking n e.2) :
    Waiting (n.step e) := by
  unfold step
  rcases h with hstop | hall
  · rw [if_pos hstop]
    exact .inl hstop
  · split_ifs with hstop
    · exact .inl hstop
    · exact handleEvent_waiting (n := n.at_ e.1) hall hon

/-- Every event of the run is met in a state in which it parks no connection. -/
def RunNotParking : List (Moment × Event) → Node cx → Prop
  | [], _ => True
  | e :: rest, n => NotParking n e.2 ∧ RunNotParking rest (n.step e)

instance decidableRunNotParking : (events : List (Moment × Event)) → (n : Node cx) →
    Decidable (RunNotParking events n)
  | [], _ => .isTrue trivial
  | e :: rest, n =>
    have := decidableRunNotParking rest (n.step e)
    inferInstanceAs (Decidable (NotParking n e.2 ∧ RunNotParking rest (n.step e)))

theorem run_waiting {events : List (Moment × Event)} (h : Waiting n)
    (hon : RunNotParking events n) : Waiting (n.run events) := by
  induction events generalizing n with
  | nil => exact h
  | cons e rest ih => exact ih (step_waiting h hon.1) hon.2

theorem new_waiting (chain : ChainState) (pool : TransactionPool cx) (cfg : NodeConfig) :
    Waiting (Node.new chain pool cfg) := by
  refine .inr fun id c hc => ?_
  simp [ctx?, Node.new] at hc

/-- No sync peer is left waiting for nothing, as long as no get-objects answer is taken
for the answer to an abandoned batch while another request is in flight, or finds every
id still to be asked for already held. -/
theorem synchronizing_peer_has_deadline {chain : ChainState} {pool : TransactionPool cx}
    {cfg : NodeConfig} {events : List (Moment × Event)}
    (hon : RunNotParking events (Node.new chain pool cfg))
    (hstop : ((Node.new chain pool cfg).run events).stop = false) :
    ∀ id c, ((Node.new chain pool cfg).run events).ctx? id = some c → c.state = .synchronizing →
      c.chainRequestDeadline.isSome ∨ c.objectsDeadline.isSome := by
  rcases run_waiting (new_waiting chain pool cfg) hon with h | h
  · rw [hstop] at h
    cases h
  · exact h

def sampleEngine : Node sampleCrypto :=
  .new (sampleNode defaultConfig .none 0) (.new sampleCrypto {}) {}

def sampleAhead : CoreSyncData := ⟨3,mixHash [9],0,0,0⟩

def sampleEntry : Bytes := chainEntry 0 3 [sampleGenesisId,mixHash [8],mixHash [9]]

/-- Two batches are asked for, the first one past its deadline; its late answer ends the
second request. -/
def sampleParking : List (Moment × Event) :=
  [(⟨0,0⟩,.established 1 ⟨false,false,false,some (⟨0,19,false,sampleAhead⟩,true)⟩),
    (⟨1,0⟩,.frame 1 (.responseChainEntry sampleEntry)),
    (⟨70000,70⟩,.tick),
    (⟨70001,70⟩,.frame 1 (.timedSync (some sampleAhead))),
    (⟨70002,70⟩,.frame 1 (.responseChainEntry sampleEntry)),
    (⟨70003,70⟩,.frame 1 (.responseGetObjects (some ⟨[],[mixHash [8],mixHash [9]],3⟩)))]

def sampleAnswered : List (Moment × Event) :=
  sampleParking.take 2 ++
    [(⟨2,0⟩,.frame 1 (.responseGetObjects (some ⟨[],[mixHash [8],mixHash [9]],3⟩)))]

theorem synchronizing_peer_has_deadline_sample :
    ((sampleEngine.run sampleAnswered).ctx? 1).map PeerCtx.state = some .synchronizing ∧
    ∀ id c, (sampleEngine.run sampleAnswered).ctx? id = some c → c.state = .synchronizing →
      c.chainRequestDeadline.isSome ∨ c.objectsDeadline.isSome :=
  ⟨by decide +kernel,synchronizing_peer_has_deadline (by decide +kernel) (by decide +kernel)⟩

theorem synchronizing_peer_parked :
    ((sampleEngine.run sampleParking).ctx? 1).map
        (fun c => (c.state,c.chainRequestDeadline,c.objectsDeadline)) =
      some (.synchronizing,none,none) ∧ (sampleEngine.run sampleParking).stop = false := by
  decide +kernel

end Node

end Wrkz
