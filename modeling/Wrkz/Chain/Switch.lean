import Wrkz.Chain.Retention

/-!
The loops of a chain switch: blocks come off, a branch goes on, a tail is put
back. Each loop is followed to its end, also when it stops half way, with a
property `I` of the state and its chain carried along.
-/

set_option autoImplicit false

namespace Wrkz

open Library ChainState List

/-- What pushing an accepted block, taking blocks off and moving alternative
blocks about all keep. -/
structure Stable {cx : Crypto} (U : Set RawBlock)
    (I : ChainState → MainChain cx → Prop) : Prop where
  push : ∀ {s : ChainState} {chain : MainChain cx} {b : MainBlock cx} {d prev : Nat},
    Sound U s chain → I s chain → prev + 1 = chain.length → b.raw ∈ U →
    s.checkMain cx b.block b.raw.transactions b.info.blockHash prev = .ok (b.accepted d) →
    (∀ c ∈ chain, c.info.blockHash ≠ b.info.blockHash) → I (s.afterPush chain b) (chain ++ [b])
  takeOff : ∀ {s t : ChainState} {p q : MainChain cx}, Sound U s (p ++ q) → p ≠ [] →
    I s (p ++ q) → Unwinds s t p q → I t p
  branches : ∀ {s : ChainState} {chain : MainChain cx} (alts : AltBlocks)
    (unwound : List UnwoundBlock), I s chain →
    I { s with altBlocks := alts, unwound := unwound } chain

/-- Sound, and with the property. -/
structure Kept {cx : Crypto} (U : Set RawBlock) (I : ChainState → MainChain cx → Prop)
    (s : ChainState) (chain : MainChain cx) : Prop where
  sound : Sound U s chain
  inv : I s chain

structure SameBranches (s t : ChainState) : Prop where
  env : SameEnv s t
  altBlocks : t.altBlocks = s.altBlocks
  unwound : t.unwound = s.unwound

namespace SameBranches

theorem refl (s : ChainState) : SameBranches s s := ⟨SameEnv.refl s,rfl,rfl⟩

theorem trans {s t u : ChainState} (h : SameBranches s t) (h' : SameBranches t u) :
    SameBranches s u :=
  ⟨h.env.trans h'.env,h'.altBlocks.trans h.altBlocks,h'.unwound.trans h.unwound⟩

theorem afterPush {cx : Crypto} (s : ChainState) (chain : MainChain cx) (b : MainBlock cx) :
    SameBranches s (s.afterPush chain b) := ⟨⟨rfl,rfl,rfl,rfl,rfl⟩,rfl,rfl⟩

end SameBranches

variable {cx : Crypto} {U : Set RawBlock} {I : ChainState → MainChain cx → Prop}
  {s : ChainState} {chain p q : MainChain cx}

theorem Kept.takeOff (hI : Stable U I) {t : ChainState} (h : Kept U I s (p ++ q)) (hp : p ≠ [])
    (hoff : Unwinds s t p q) (halts : t.altBlocks = s.altBlocks) : Kept U I t p :=
  ⟨h.sound.takenOff hp hoff.toTakenOff halts,hI.takeOff h.sound hp h.inv hoff⟩

theorem Kept.addToMain_cases (h : Kept U I s chain) (hU : UniqueIds cx U) (hI : Stable U I)
    {block : BlockTemplate} {raw : RawBlock} {hash : Hash} {prev : Nat} (hknown : raw ∈ U)
    (hparsed : BlockTemplate.fromBytes raw.block = .ok block) (hhash : block.hash cx = .ok hash)
    (hprev : prev + 1 = chain.length)
    (hparent : ∀ c, chain.getLast? = some c → block.previousBlockHash = c.info.blockHash) :
    (∃ e, addToMain cx block raw hash prev s = .error e s ∧
      s.checkMain cx block raw.transactions hash prev = .error e) ∨
    ∃ (b : MainBlock cx) (d : Nat), b.block = block ∧ b.raw = raw ∧ b.info.blockHash = hash ∧
      s.checkMain cx block raw.transactions hash prev = .ok (b.accepted d) ∧
      addToMain cx block raw hash prev s =
        .ok ⟨prev+1,hash,b.info.cumulativeDifficulty,b.info.alreadyGeneratedCoins,d,.main⟩
          (s.afterPush chain b) ∧
      Kept U I (s.afterPush chain b) (chain ++ [b]) := by
  unfold addToMain
  rw [run_get_bind]
  cases hcheck : s.checkMain cx block raw.transactions hash prev with
  | error e => exact .inl ⟨e,run_liftExcept_of_error rfl,rfl⟩
  | ok a =>
    obtain ⟨b,rfl,rfl,rfl,hheight,ha⟩ := checkMain_mainBlock hparsed hhash hcheck
    have hfresh := h.sound.linked.fresh hU ⟨_,hknown,hparsed⟩ hhash (by rw [hheight, hprev])
    have hpush := h.sound.holds.pushBlock_eq hfresh a.difficulty
    rw [← ha, ← hprev] at hpush
    rw [ha] at hcheck
    refine .inr ⟨b,a.difficulty,rfl,rfl,rfl,by rw [← ha],?_,
      ⟨h.sound.holds.push hfresh,by simp,?_,h.sound.alts⟩,
      hI.push h.sound h.inv hprev hknown hcheck hfresh⟩
    · rw [run_liftExcept_of_ok rfl, run_bind_of_ok hpush, run_pure, ha]
      rfl
    · exact h.sound.linked.concat hknown (by rw [hheight, hprev]) hparent

theorem reverse_range'_concat (p q : MainChain cx) (b : MainBlock cx) :
    (range' p.length (q ++ [b]).length).reverse =
      (p ++ q).length :: (range' p.length q.length).reverse := by
  rw [length_append, length_singleton, range'_concat]
  simp

/-- The tail comes off, or the unwind stops at a block whose output pairs are lost. -/
theorem unwindAll_spec (hI : Stable U I) (hp : p ≠ []) (q : MainChain cx) :
    ∀ {s : ChainState}, Kept U I s (p ++ q) →
      Ensures (unwindAll cx (range' p.length q.length).reverse) s
        (fun _ t => Unwinds s t p q ∧ Kept U I t p ∧ SameBranches s t)
        (fun e t => ∃ q₁ b q₂, q = q₁ ++ b :: q₂ ∧
          e = .rule (.reorganisationUnavailable (p ++ q₁).length) ∧
          Kept U I t (p ++ (q₁ ++ [b])) ∧ ¬ s.KnowsRefs (p ++ q₁).length ∧ SameBranches s t) := by
  induction q using reverseRecOn with
  | nil =>
    intro s h
    have h' : Kept U I s p := by simpa using h
    exact Ensures.pure ⟨Unwinds.refl h'.sound.holds,h',SameBranches.refl s⟩
  | append_singleton q b ih =>
    intro s h
    have happ : p ++ (q ++ [b]) = (p ++ q) ++ [b] := by simp
    have hholds := happ ▸ h.sound.holds
    rw [reverse_range'_concat]
    unfold unwindAll
    by_cases hknows : s.KnowsRefs (p ++ q).length
    · obtain ⟨t,hrun,hoff,halts,hunw⟩ := hholds.unwindBlock_ok hknows
      have hkept : Kept U I t (p ++ q) :=
        Kept.takeOff hI (happ ▸ h) (by simp [hp]) hoff halts
      have hsame : SameBranches s t := ⟨hoff.env,halts,hunw⟩
      refine Ensures.bind (Q := fun _ u => u = t) (Ensures.of_ok hrun rfl) ?_
      rintro ⟨⟩ u rfl
      refine (ih hkept).mono ?_ ?_
      · rintro ⟨⟩ v ⟨hoff',hkept',hsame'⟩
        exact ⟨hoff.trans hoff',hkept',hsame.trans hsame'⟩
      · rintro e v ⟨q₁,c,q₂,rfl,he,hkept',hnot,hsame'⟩
        refine ⟨q₁,c,q₂ ++ [b],by simp,he,hkept',fun hk => hnot ?_,hsame.trans hsame'⟩
        exact hoff.knowsRefs (by simp) hk
    · refine Ensures.bind (Q := fun _ _ => False)
        (Ensures.of_error (hholds.unwindBlock_error hknows) ?_) (by simp)
      exact ⟨q,b,[],rfl,rfl,h,hknows,SameBranches.refl s⟩

/-- The hashes are held as alternative blocks, each on the one before, the first on `x`. -/
def Follows (alts : AltBlocks) : Hash → List Hash → Prop
  | _, [] => True
  | x, h :: rest => (∃ alt, alts.lookup h = some alt ∧ alt.prevHash = x) ∧ Follows alts h rest

/-- The block `b` of the chain is the alternative block `h`. -/
def BuiltFrom (alts : AltBlocks) (h : Hash) (b : MainBlock cx) : Prop :=
  b.info.blockHash = h ∧ ∃ alt, alts.lookup h = some alt ∧ b.raw = ⟨alt.blockBlob,alt.txBlobs⟩

/-- The alternative block `h` does not pass on top of `chain`. -/
def RefusedOn (cx : Crypto) (t : ChainState) (chain : MainChain cx) (h : Hash) (e : ChainError) :
    Prop :=
  ∃ alt block, t.altBlocks.lookup h = some alt ∧
    BlockTemplate.fromBytes alt.blockBlob = .ok block ∧
    t.checkMain cx block alt.txBlobs h (chain.length-1) = .error e

variable {c : MainBlock cx} {alts : AltBlocks} {alt : AltBlock} {x : Hash}

theorem Sound.altIndex_eq (h : Sound U s chain) (hU : UniqueIds cx U)
    (halt : s.altBlocks.lookup x = some alt) {i : Nat}
    (hc : chain[i]? = some c) (hprev : alt.prevHash = c.info.blockHash) : alt.index = i + 1 := by
  obtain ⟨t,pt,ha⟩ := h.alts x alt halt
  obtain ⟨j,hj,hindex⟩ := ha.parentHeight
  have hij := h.linked.index_of_hash hU ha.parentKnown ha.parentHashed hj hc hprev.symm
  omega

theorem applyBranch_spec (hU : UniqueIds cx U) (hI : Stable U I) (branch : List Hash) :
    ∀ {s : ChainState} {chain : MainChain cx} (n : Nat) (c : MainBlock cx), Kept U I s chain →
      chain.getLast? = some c → Follows s.altBlocks c.info.blockHash branch →
      Ensures (applyBranch cx branch n) s
        (fun r t => ∃ bs, Kept U I t (chain ++ bs) ∧ SameBranches s t ∧ r.1 = n + bs.length ∧
          Grew s t chain.length (chain ++ bs).length ∧
          ((r.2 = none ∧ List.Forall₂ (BuiltFrom s.altBlocks) branch bs) ∨
            ∃ done h rest e, branch = done ++ h :: rest ∧
              List.Forall₂ (BuiltFrom s.altBlocks) done bs ∧ r.2 = some (e,h) ∧
              RefusedOn cx t (chain ++ bs) h e))
        (fun _ _ => False) := by
  induction branch with
  | nil =>
    intro s chain n c h _ _
    exact Ensures.of_ok rfl ⟨[],by simpa using h,SameBranches.refl s,rfl,
      by simpa using Grew.refl s chain.length,.inl ⟨rfl,.nil⟩⟩
  | cons x rest ih =>
    intro s chain n c h hlast hfollows
    obtain ⟨⟨alt,halt,hprev⟩,hrest⟩ := hfollows
    obtain ⟨t,pt,ha⟩ := h.sound.alts x alt halt
    have hlen : 0 < chain.length := length_pos_iff.2 h.sound.nonempty
    have hc : chain[chain.length-1]? = some c := by rw [← getLast?_eq_getElem?]; exact hlast
    have hindex := h.sound.altIndex_eq hU halt hc hprev
    have hprevIndex : alt.index - 1 + 1 = chain.length := by omega
    have hparsed : BlockTemplate.fromBytes (RawBlock.mk alt.blockBlob alt.txBlobs).block = .ok t :=
      ha.parsed
    have hparent : ∀ c', chain.getLast? = some c' → t.previousBlockHash = c'.info.blockHash := by
      intro c' hc'
      rw [hlast] at hc'
      cases hc'
      rw [← ha.prevHash, hprev]
    rcases h.addToMain_cases hU hI ha.known hparsed ha.hashed hprevIndex hparent with
      ⟨e,hadd,hcheck⟩ | ⟨b,d,_,hraw,hhash,_,hadd,hkept⟩
    · refine Ensures.of_ok (applyBranch_cons_error halt ha.parsed hadd)
        ⟨[],by simpa using h,SameBranches.refl s,rfl,by simpa using Grew.refl s chain.length,
          .inr ?_⟩
      refine ⟨[],x,rest,e,rfl,.nil,rfl,alt,t,halt,ha.parsed,?_⟩
      rw [append_nil, show chain.length - 1 = alt.index - 1 by omega]
      exact hcheck
    · have hrun := applyBranch_cons_ok rest n halt ha.parsed hadd
      have hstep := ih (n+1) b hkept (by simp) (hhash ▸ hrest)
      have hbuilt : BuiltFrom s.altBlocks x b := ⟨hhash,alt,halt,hraw⟩
      refine Ensures.of_run hrun (hstep.mono ?_ (fun _ _ hfalse => hfalse))
      rintro r u ⟨bs,hkept,hsame,hr,hgrew,hcases⟩
      refine ⟨b :: bs,by simpa using hkept,(SameBranches.afterPush s chain b).trans hsame,?_,?_,?_⟩
      · rw [hr, length_cons]
        omega
      · have hlen' : (chain ++ [b]).length = chain.length + 1 := by simp
        rw [hlen'] at hgrew
        exact Grew.cons hgrew
      · rcases hcases with ⟨hnone,hall⟩ | ⟨done,y,rest',e,rfl,hdone,hr',href⟩
        · exact .inl ⟨hnone,.cons hbuilt hall⟩
        · exact .inr ⟨x :: done,y,rest',e,rfl,.cons hbuilt hdone,hr',by simpa using href⟩

/-- The blocks of a tail as a switch remembers them, from the fork up. -/
def unwoundRaws (start : Nat) : MainChain cx → List UnwoundRaw
  | [] => []
  | b :: q => ⟨start,b.info,b.raw⟩ :: unwoundRaws (start+1) q

theorem unwoundRaws_concat (start : Nat) (q : MainChain cx) (b : MainBlock cx) :
    unwoundRaws start (q ++ [b]) = unwoundRaws start q ++ [⟨start + q.length,b.info,b.raw⟩] := by
  induction q generalizing start with
  | nil => rfl
  | cons c q ih =>
    simp only [cons_append, unwoundRaws, ih, length_cons]
    rw [show start + 1 + q.length = start + (q.length + 1) by omega]

/-- The blocks that leave are remembered with their bodies, or one has no body. -/
theorem collectUnwound_cases (q : MainChain cx) (tail : MainChain cx)
    (h : HoldsTables s (p ++ q ++ tail)) :
    (s.collectUnwound (range' p.length q.length).reverse = .ok (unwoundRaws p.length q).reverse ∧
      ∀ i, p.length ≤ i → i < p.length + q.length → (s.rawBlock i).isSome = true) ∨
    ∃ i, p.length ≤ i ∧ i < p.length + q.length ∧ s.rawBlock i = none ∧
      s.collectUnwound (range' p.length q.length).reverse =
        .error (.rule (.reorganisationUnavailable i)) := by
  induction q using reverseRecOn generalizing tail with
  | nil => exact .inl ⟨rfl,by simp; omega⟩
  | append_singleton q b ih =>
    have happ : p ++ (q ++ [b]) ++ tail = p ++ q ++ ([b] ++ tail) := by simp
    have hget : (p ++ (q ++ [b]) ++ tail)[(p ++ q).length]? = some b := by
      rw [happ, getElem?_append_right (Nat.le_refl _)]
      simp
    have hinfo : s.blockInfo (p ++ q).length = some b.info := by
      rw [h.blockInfo_eq, hget]
      rfl
    rw [reverse_range'_concat]
    unfold collectUnwound
    cases hraw : s.rawBlock (p ++ q).length with
    | none =>
      right
      refine ⟨(p ++ q).length,by simp,by simp,hraw,?_⟩
      simp only [hinfo, orRefuse, bind, Except.bind]
    | some raw =>
      have hraw' : s.store (.rawBlock (p ++ q).length) = some raw := by
        unfold rawBlock at hraw
        split at hraw
        · cases hraw
        · exact hraw
      obtain ⟨c,hc,rfl⟩ := h.rawBlocks _ _ hraw'
      rw [hget] at hc
      cases hc
      rcases ih ([b] ++ tail) (happ ▸ h) with ⟨heq,hall⟩ | ⟨i,hi,hi',hnone,heq⟩
      · left
        constructor
        · simp only [hinfo, orRefuse, bind, Except.bind, heq, pure, Except.pure]
          rw [unwoundRaws_concat]
          simp
        · intro i hi hi'
          by_cases hlt : i < p.length + q.length
          · exact hall i hi hlt
          · have hieq : i = (p ++ q).length := by
              simp only [length_append, length_singleton] at hi' ⊢
              omega
            rw [hieq, hraw]
            rfl
      · right
        refine ⟨i,hi,by simp; omega,hnone,?_⟩
        simp only [hinfo, orRefuse, bind, Except.bind, heq]

/-- A tail whose blocks follow each other, the first on `x`. -/
def TailOn (U : Set RawBlock) : Hash → MainChain cx → Prop
  | _, [] => True
  | x, b :: q => b.raw ∈ U ∧ b.block.previousBlockHash = x ∧ TailOn U b.info.blockHash q

theorem Linked.tailOn (h : Linked U (p ++ q)) (hlast : p.getLast? = some c) :
    TailOn U c.info.blockHash q := by
  induction q generalizing p c with
  | nil => trivial
  | cons b q ih =>
    have hlen := length_pos_of_mem (mem_of_getLast? hlast)
    refine ⟨h.known b (by simp),?_,ih (p := p ++ [b]) (by simpa using h) (by simp)⟩
    refine h.parent (p.length-1) c b ?_ ?_
    · rw [getElem?_append_left (by omega), ← getLast?_eq_getElem?]
      exact hlast
    · rw [show p.length - 1 + 1 = p.length by omega]
      simp

def SameBody (b b' : MainBlock cx) : Prop :=
  b'.block = b.block ∧ b'.raw = b.raw ∧ b'.info.blockHash = b.info.blockHash

theorem restoreTail_spec (hU : UniqueIds cx U) (hI : Stable U I) (q : MainChain cx) :
    ∀ {s : ChainState} {chain : MainChain cx} (c : MainBlock cx), Kept U I s chain →
      chain.getLast? = some c → TailOn U c.info.blockHash q →
      Ensures (restoreTail cx (unwoundRaws chain.length q)) s
        (fun _ t => ∃ q', Kept U I t (chain ++ q') ∧ SameBranches s t ∧ List.Forall₂ SameBody q q' ∧
          Grew s t chain.length (chain ++ q').length)
        (fun e t => ∃ done b rest done', q = done ++ b :: rest ∧
          List.Forall₂ SameBody done done' ∧ Kept U I t (chain ++ done') ∧ SameBranches s t ∧
          t.checkMain cx b.block b.raw.transactions b.info.blockHash
            ((chain ++ done').length - 1) = .error e) := by
  induction q with
  | nil =>
    intro s chain c h _ _
    exact Ensures.pure ⟨[],by simpa using h,SameBranches.refl s,.nil,
      by simpa using Grew.refl s chain.length⟩
  | cons b q ih =>
    intro s chain c h hlast htail
    obtain ⟨hknown,hprev,hrest⟩ := htail
    have hlen : 0 < chain.length := length_pos_iff.2 h.sound.nonempty
    have hprevIndex : chain.length - 1 + 1 = chain.length := by omega
    have hparent : ∀ c', chain.getLast? = some c' →
        b.block.previousBlockHash = c'.info.blockHash := by
      intro c' hc'
      rw [hlast] at hc'
      cases hc'
      exact hprev
    have hparse : (liftExcept ((BlockTemplate.fromBytes b.raw.block).mapError
        (fun _ => storedUnparsed chain.length)) : ChainM _) s = .ok b.block s := by
      simp [liftExcept, b.parsed, Except.mapError]
    have hhash : (liftExcept ((b.block.hash cx).mapError
        (fun _ => ChainError.corrupt "stored block has no hash")) : ChainM _) s =
          .ok b.info.blockHash s := by
      simp [liftExcept, b.hashed, Except.mapError]
    unfold unwoundRaws restoreTail
    rcases h.addToMain_cases hU hI hknown b.parsed b.hashed hprevIndex hparent with
      ⟨e,hadd,hcheck⟩ | ⟨b',d,hblock,hraw,hhash',_,hadd,hkept⟩
    · refine Ensures.of_error (e := e) (t := s) ?_ ?_
      · rw [run_bind_of_ok hparse, run_bind_of_ok hhash, run_bind_of_error hadd]
      · exact ⟨[],b,q,[],rfl,.nil,by simpa using h,SameBranches.refl s,by simpa using hcheck⟩
    · have hstep := ih b' hkept (by simp) (by rw [hhash']; exact hrest)
      have hlen' : (chain ++ [b']).length = chain.length + 1 := by simp
      rw [hlen'] at hstep
      have hsame : SameBody b b' := ⟨hblock,hraw,hhash'⟩
      refine Ensures.of_run (by
        rw [run_bind_of_ok hparse, run_bind_of_ok hhash, run_bind_of_ok hadd]) (hstep.mono ?_ ?_)
      · rintro ⟨⟩ t ⟨q',hkept',hsame',hall,hgrew⟩
        exact ⟨b' :: q',by simpa using hkept',(SameBranches.afterPush s chain b').trans hsame',
          .cons hsame hall,Grew.cons hgrew⟩
      · rintro e t ⟨done,c',rest,done',rfl,hdone,hkept',hsame',hcheck⟩
        exact ⟨b :: done,c',rest,b' :: done',rfl,.cons hsame hdone,by simpa using hkept',
          (SameBranches.afterPush s chain b').trans hsame',by simpa using hcheck⟩

def altOf (index : Nat) (b : MainBlock cx) : AltBlock :=
  ⟨index,b.block.previousBlockHash,b.info,b.raw.block,b.raw.transactions⟩

def keepAlts (alts : AltBlocks) : Nat → MainChain cx → AltBlocks
  | _, [] => alts
  | start, b :: q => (keepAlts alts (start+1) q).insert b.info.blockHash (altOf start b)

theorem keepTail_append (q : MainChain cx) :
    ∀ (start : Nat) (rest : List UnwoundRaw) (s : ChainState),
      ∃ unwound, keepTail ((unwoundRaws start q).reverse ++ rest) s =
        keepTail rest
          { s with altBlocks := keepAlts s.altBlocks start q, unwound := unwound } := by
  induction q with
  | nil =>
    intro start rest s
    exact ⟨s.unwound,rfl⟩
  | cons b q ih =>
    intro start rest s
    obtain ⟨unwound,heq⟩ := ih (start+1) (⟨start,b.info,b.raw⟩ :: rest) s
    refine ⟨unwound ++ [⟨start,b.info.blockHash,b.block.transactionHashes,b.raw.transactions⟩],?_⟩
    rw [unwoundRaws, reverse_cons, append_assoc, singleton_append, heq]
    conv_lhs => unfold keepTail
    have hparse : ∀ t : ChainState, (liftExcept ((BlockTemplate.fromBytes b.raw.block).mapError
        (fun _ => storedUnparsed start)) : ChainM _) t = .ok b.block t := by
      intro t
      simp [liftExcept, b.parsed, Except.mapError]
    rw [run_bind_of_ok (hparse _), run_modify_bind]
    rfl

theorem keepTail_eq (start : Nat) (q : MainChain cx) (s : ChainState) :
    ∃ unwound, keepTail (unwoundRaws start q).reverse s =
      .ok ⟨⟩ { s with altBlocks := keepAlts s.altBlocks start q, unwound := unwound } := by
  obtain ⟨unwound,heq⟩ := keepTail_append q start [] s
  rw [append_nil] at heq
  exact ⟨unwound,heq⟩

theorem dropAll_lookup (alts : AltBlocks) (hs : List Hash) (x : Hash) :
    (alts.dropAll hs).lookup x = if x ∈ hs then none else alts.lookup x := by
  induction hs generalizing alts with
  | nil => simp [AltBlocks.dropAll]
  | cons h hs ih =>
    have hcons : alts.dropAll (h :: hs) = AltBlocks.dropAll (alts.erase h) hs := rfl
    rw [hcons, ih]
    by_cases hx : x ∈ hs
    · simp [hx]
    · by_cases hxh : x = h
      · subst hxh
        simp [hx]
      · simp [hx, hxh, AList.lookup_erase_ne hxh]

theorem dropAll_lookup_some {hs : List Hash}
    (h : (alts.dropAll hs).lookup x = some alt) : alts.lookup x = some alt := by
  rw [dropAll_lookup] at h
  split at h
  · cases h
  · exact h

theorem AltsSound.keepAlts (h : AltsSound cx U alts) (hp : Linked U (p ++ q))
    (hlast : p.getLast? = some c) : AltsSound cx U (keepAlts alts p.length q) := by
  induction q generalizing p c with
  | nil => exact h
  | cons b q ih =>
    have hlen := length_pos_of_mem (mem_of_getLast? hlast)
    have hc : (p ++ b :: q)[p.length-1]? = some c := by
      rw [getElem?_append_left (by omega), ← getLast?_eq_getElem?]
      exact hlast
    have hrest := ih (p := p ++ [b]) (c := b) (by simpa using hp) (by simp)
    rw [length_append, length_singleton] at hrest
    refine hrest.insert ⟨b.block,c.block,?_⟩
    refine ⟨hp.known b (by simp),b.parsed,b.hashed,rfl,hp.height p.length b (by simp),rfl,
      hp.template_mem c (mem_of_getElem? hc),?_,p.length-1,hp.height _ c hc,?_⟩
    · have hprev := (Linked.tailOn hp hlast).2.1
      simp only [altOf, hprev]
      exact c.hashed
    · simp only [altOf]
      omega

end Wrkz
