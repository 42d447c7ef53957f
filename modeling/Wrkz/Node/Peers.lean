import Wrkz.Library.Handler
import Wrkz.Node.Engine

/-!
What the steps of the engine do to the connections. Most of them touch the connection
they are about and no other; a property of every connection is carried past that one
and closed again when the step is done with it.
-/

set_option autoImplicit false

namespace Wrkz

open Library

namespace Node

variable {cx : Crypto} {n : Node cx} {id other : ConnId} {c : PeerCtx} {f : PeerCtx → PeerCtx}
  {P : PeerCtx → Prop}

theorem ctx?_setPeer_self (p : Peer) : (n.setPeer id p).ctx? id = some p.ctx := by
  simp [ctx?, setPeer]

theorem ctx?_setPeer_ne (p : Peer) (h : other ≠ id) : (n.setPeer id p).ctx? other = n.ctx? other := by
  simp [ctx?, setPeer, AList.lookup_insert_ne h]

@[simp] theorem ctx?_updateCtx_self : (n.updateCtx id f).ctx? id = (n.ctx? id).map f := by
  unfold updateCtx
  cases h : n.peers.lookup id with
  | none => simp [ctx?, h]
  | some p =>
    rw [ctx?_setPeer_self]
    simp [ctx?, h]

variable {n' : Node cx} {response : GetObjectsResponse} {p : Peer} {message : Message}

theorem lookup_updateCtx (h : n.peers.lookup id = some p) :
    (n.updateCtx id f).peers.lookup id = some { p with ctx := f p.ctx } := by
  simp [updateCtx, h, setPeer]

theorem ctx?_of_lookup (h : n.peers.lookup id = some p) : n.ctx? id = some p.ctx := by
  rw [ctx?, h]
  rfl

theorem ctx?_updateCtx_ne (h : other ≠ id) : (n.updateCtx id f).ctx? other = n.ctx? other := by
  unfold updateCtx
  cases n.peers.lookup id with
  | none => rfl
  | some p => exact ctx?_setPeer_ne _ h

@[simp] theorem ctx?_dropPeer_self : (n.dropPeer id).ctx? id = none := by
  simp [dropPeer, ctx?, recalculateObservedHeight, AList.lookup_erase]

theorem ctx?_dropPeer_ne (h : other ≠ id) : (n.dropPeer id).ctx? other = n.ctx? other := by
  simp [dropPeer, ctx?, recalculateObservedHeight, AList.lookup_erase_ne h]

@[simp] theorem ctx?_recalculateObservedHeight :
    n.recalculateObservedHeight.ctx? id = n.ctx? id := rfl

@[simp] theorem ctx?_penalise (o : Offence) : (n.penalise other o).ctx? id = n.ctx? id := by
  unfold penalise
  split <;> rfl

@[simp] theorem ctx?_checkSynchronized : n.checkSynchronized.ctx? id = n.ctx? id := by
  unfold checkSynchronized
  split_ifs <;> rfl

@[simp] theorem ctx?_onConnectionSynchronized : n.onConnectionSynchronized.ctx? id = n.ctx? id := by
  unfold onConnectionSynchronized
  rw [ctx?_checkSynchronized]
  rfl

/-! The chain is not touched either. -/

@[simp] theorem new_chain (chain : ChainState) (pool : TransactionPool cx) (cfg : NodeConfig) :
    (Node.new chain pool cfg).chain = chain := rfl

@[simp] theorem new_pool (chain : ChainState) (pool : TransactionPool cx) (cfg : NodeConfig) :
    (Node.new chain pool cfg).pool = pool := rfl

@[simp] theorem setPeer_pool (n : Node cx) (id : ConnId) (p : Peer) :
    (n.setPeer id p).pool = n.pool := rfl

@[simp] theorem setPeer_chain (n : Node cx) (id : ConnId) (p : Peer) :
    (n.setPeer id p).chain = n.chain := rfl

@[simp] theorem updateCtx_chain : (n.updateCtx id f).chain = n.chain := by
  unfold updateCtx
  split <;> rfl

@[simp] theorem updateCtx_stop : (n.updateCtx id f).stop = n.stop := by
  unfold updateCtx
  split <;> rfl

@[simp] theorem dropPeer_stop : (n.dropPeer id).stop = n.stop := rfl

@[simp] theorem post_stop (message : Message) : (n.post id message).stop = n.stop := by
  unfold post
  split
  · rfl
  · split_ifs <;> rfl

@[simp] theorem penalise_stop (o : Offence) : (n.penalise id o).stop = n.stop := by
  unfold penalise
  split <;> rfl

@[simp] theorem failPeer_stop (e : PeerError) : (n.failPeer id e).stop = n.stop := by
  unfold failPeer
  split <;> simp

@[simp] theorem checkSynchronized_stop : n.checkSynchronized.stop = n.stop := by
  unfold checkSynchronized
  split_ifs <;> rfl

@[simp] theorem dropPeer_chain : (n.dropPeer id).chain = n.chain := rfl

@[simp] theorem recalculateObservedHeight_chain : n.recalculateObservedHeight.chain = n.chain := rfl

theorem ctx?_failPeer_self (e : PeerError) : (n.failPeer id e).ctx? id = none := by
  unfold failPeer
  split <;> exact ctx?_dropPeer_self

theorem ctx?_failPeer_ne (e : PeerError) (h : other ≠ id) :
    (n.failPeer id e).ctx? other = n.ctx? other := by
  unfold failPeer
  split
  · rw [ctx?_dropPeer_ne h, ctx?_penalise]
  · exact ctx?_dropPeer_ne h

theorem ctx?_post_cases (n : Node cx) (id : ConnId) (message : Message) :
    (∀ id', (n.post id message).ctx? id' = n.ctx? id') ∨ n.post id message = n.dropPeer id := by
  unfold post
  cases n.peers.lookup id with
  | none => exact .inl fun _ => rfl
  | some p =>
    dsimp only
    split_ifs
    · exact .inl fun _ => rfl
    · exact .inr rfl

theorem post_eq (h : n.peers.lookup id = some p) (hroom : p.sink.accepts = true) :
    n.post id message = { n with sent := n.sent ++ [(id,message)] } := by
  rw [post, h]
  exact if_pos hroom

@[simp] theorem updateCtx_sent : (n.updateCtx id f).sent = n.sent := by
  unfold updateCtx
  split <;> rfl

theorem ctx?_of_post (h : (n.post id message).ctx? other = some c) : n.ctx? other = some c := by
  rcases ctx?_post_cases n id message with heq | heq
  · rwa [heq] at h
  · rw [heq] at h
    by_cases hid : other = id
    · subst hid
      rw [ctx?_dropPeer_self] at h
      cases h
    · rwa [ctx?_dropPeer_ne hid] at h

theorem ctx?_notifyObjects
    (h : n.notifyObjects id response = .ok n') (id' : ConnId) : n'.ctx? id' = n.ctx? id' := by
  unfold notifyObjects at h
  split at h
  · cases h
    rfl
  · next p hp =>
    split_ifs at h
    cases h
    by_cases hid : id' = id
    · subst hid
      simp [ctx?, setPeer, hp]
    · simp [ctx?, setPeer, AList.lookup_insert_ne hid]

theorem notifyObjects_stop (h : n.notifyObjects id response = .ok n') : n'.stop = n.stop := by
  unfold notifyObjects at h
  split at h
  · cases h
    rfl
  · split_ifs at h
    cases h
    rfl

def All (P : PeerCtx → Prop) (n : Node cx) : Prop := ∀ id c, n.ctx? id = some c → P c

def AllBut (id : ConnId) (P : PeerCtx → Prop) (n : Node cx) : Prop :=
  ∀ id' c, id' ≠ id → n.ctx? id' = some c → P c

theorem All.but (h : All P n) : AllBut id P n := fun id' c _ hc => h id' c hc

theorem AllBut.close (h : AllBut id P n) (hid : ∀ c, n.ctx? id = some c → P c) : All P n := by
  intro id' c hc
  by_cases heq : id' = id
  · subst heq
    exact hid c hc
  · exact h id' c heq hc

theorem All.of_subset (h : All P n)
    (hsub : ∀ id c, n'.ctx? id = some c → n.ctx? id = some c) : All P n' :=
  fun id c hc => h id c (hsub id c hc)

theorem AllBut.of_subset (h : AllBut id P n)
    (hsub : ∀ id' c, id' ≠ id → n'.ctx? id' = some c → n.ctx? id' = some c) : AllBut id P n' :=
  fun id' c hne hc => h id' c hne (hsub id' c hne hc)

theorem AllBut.updateCtx (h : AllBut id P n) : AllBut id P (n.updateCtx id f) :=
  h.of_subset fun id' c hne hc => by rwa [ctx?_updateCtx_ne hne] at hc

theorem AllBut.recalculate (h : AllBut id P n) : AllBut id P n.recalculateObservedHeight := h

theorem AllBut.close_updateCtx (h : AllBut id P n) (hid : ∀ c, n.ctx? id = some c → P (f c)) :
    All P (n.updateCtx id f) := by
  refine h.updateCtx.close fun c hc => ?_
  rw [ctx?_updateCtx_self] at hc
  obtain ⟨c0,hc0,rfl⟩ := Option.map_eq_some_iff.1 hc
  exact hid c0 hc0

theorem All.updateCtx (h : All P n) (hid : ∀ c, P c → P (f c)) : All P (n.updateCtx id f) :=
  h.but.close_updateCtx fun c hc => hid c (h id c hc)

theorem AllBut.close_dropPeer (h : AllBut id P n) : All P (n.dropPeer id) := by
  have hrest : AllBut id P (n.dropPeer id) :=
    h.of_subset fun id' c hne hc => by rwa [ctx?_dropPeer_ne hne] at hc
  exact hrest.close fun c hc => by rw [ctx?_dropPeer_self] at hc; cases hc

theorem AllBut.close_failPeer (h : AllBut id P n) (e : PeerError) : All P (n.failPeer id e) := by
  have hrest : AllBut id P (n.failPeer id e) :=
    h.of_subset fun id' c hne hc => by rwa [ctx?_failPeer_ne e hne] at hc
  exact hrest.close fun c hc => by rw [ctx?_failPeer_self] at hc; cases hc

theorem All.post (h : All P n) (message : Message) : All P (n.post id message) :=
  h.of_subset fun _ _ => ctx?_of_post

theorem AllBut.post (h : AllBut id P n) (message : Message) : AllBut id P (n.post other message) :=
  h.of_subset fun _ _ _ => ctx?_of_post

theorem All.relayToAll (h : All P n) (message : Message) (exclude : Option ConnId) :
    All P (n.relayToAll message exclude) :=
  List.foldlRecOn _ _ h fun _ hn _ _ => hn.post message

theorem All.relayBlock (h : All P n) (nb : NewBlock) : All P (n.relayBlock nb) :=
  List.foldlRecOn _ _ h fun _ hn _ _ => hn.post _

theorem applyBlock_ctx? (raw : RawBlock) : (n.applyBlock raw).2.ctx? id = n.ctx? id := by
  unfold applyBlock
  split
  · rfl
  · dsimp only
    split_ifs <;> rfl

theorem AllBut.applyBlock (h : AllBut id P n) (raw : RawBlock) : AllBut id P (n.applyBlock raw).2 :=
  h.of_subset fun _ _ _ hc => by rwa [applyBlock_ctx?] at hc

theorem All.applyBlock (h : All P n) (raw : RawBlock) : All P (n.applyBlock raw).2 :=
  h.of_subset fun _ _ hc => by rwa [applyBlock_ctx?] at hc

section

variable {α β : Type} {Q : β → Node cx → Prop} {E : PeerError → Node cx → Prop}

theorem ensures_peerCtx {g : PeerCtx → NodeM cx β} (hgone : n.ctx? id = none → E connectionGone n)
    (h : ∀ c, n.ctx? id = some c → Ensures (g c) n Q E) : Ensures (peerCtx id >>= g) n Q E := by
  cases hc : n.ctx? id with
  | none =>
    refine Ensures.of_error (t := n) ?_ (hgone hc)
    simp [peerCtx, hc, bind, EStateM.bind, get, MonadState.get, getThe, MonadStateOf.get, EStateM.get,
      fail, throw, throwThe, MonadExceptOf.throw, EStateM.throw]
  | some c =>
    have hrun : (peerCtx id >>= g) n = g c n := by
      simp [peerCtx, hc, bind, EStateM.bind, get, MonadState.get, getThe, MonadStateOf.get,
        EStateM.get, pure, EStateM.pure]
    exact Ensures.of_run hrun (h c hc)

theorem ensures_noteHeight {g : Bool → NodeM cx β} {height : Nat}
    (hgone : n.ctx? id = none → E connectionGone n)
    (h : ∀ c, n.ctx? id = some c → Ensures (g (decide (c.state = .normal)))
      (n.updateCtx id fun c => { c with remoteHeight := height }).recalculateObservedHeight Q E) :
    Ensures (noteHeight id height >>= g) n Q E := by
  unfold noteHeight
  rw [bind_assoc]
  exact ensures_peerCtx hgone fun c hc => h c hc

theorem ensures_readOr {x : Option α} {e : PeerError} {g : α → NodeM cx β} (hnone : x = none → E e n)
    (h : ∀ a, x = some a → Ensures (g a) n Q E) : Ensures (readOr x e >>= g) n Q E := by
  cases x with
  | none => exact hnone rfl
  | some a => exact h a rfl

theorem ensures_liftChain {x : Except ChainError α} {g : α → NodeM cx β} (herror : ∀ e, E e n)
    (h : ∀ a, x = .ok a → Ensures (g a) n Q E) : Ensures (liftChain x >>= g) n Q E := by
  cases x with
  | error e => exact herror _
  | ok a => exact h a rfl

end

end Node

end Wrkz
