import Wrkz.Chain.Switch

/-!
A chain switch as a whole. It succeeds, or is refused before anything moves, or
fails on the branch and puts the old tail back; what can stop it half way is
told apart, so that a configuration can rule it out.
-/

set_option autoImplicit false

namespace Wrkz

open Library

variable {cx : Crypto} {U : Set RawBlock} {I : ChainState → MainChain cx → Prop}
  {s : ChainState} {chain p q : MainChain cx}

variable {i : Nat} {branch : List Hash}

theorem branchLoop_ok {fuel : Nat} {cursor : Hash} {acc : List Hash}
    (h : s.branchLoop fuel cursor acc = .ok (i,branch)) :
    Follows s.altBlocks cursor acc →
    ∃ x pre, branch = pre ++ acc ∧ s.blockIndexByHash x = some i ∧ s.altBlocks.lookup x = none ∧
      Follows s.altBlocks x branch ∧ (pre = [] → x = cursor) ∧
      (pre ≠ [] → pre.getLast? = some cursor) := by
  induction h using ChainState.branchLoop_induction with
  | main fuel cursor _ hl hj =>
    exact fun hacc => ⟨cursor,[],rfl,hj,hl,hacc,fun _ => rfl,fun h => absurd rfl h⟩
  | held fuel cursor acc alt _ _ hl ih =>
    intro hacc
    obtain ⟨x,pre,hb,hx,hnone,hfollows,_,_⟩ := ih ⟨⟨alt,hl,rfl⟩,hacc⟩
    exact ⟨x,pre ++ [cursor],by simp [hb],hx,hnone,hfollows,by simp,by simp⟩

theorem branchHashes_ok {hash : Hash} (h : s.branchHashes hash = .ok (i,branch)) :
    ∃ x, s.blockIndexByHash x = some i ∧ s.altBlocks.lookup x = none ∧
      Follows s.altBlocks x branch ∧ (branch = [] → x = hash) ∧
      (branch ≠ [] → branch.getLast? = some hash) := by
  obtain ⟨x,pre,hb,hx,hnone,hfollows,hnil,hlast⟩ := branchLoop_ok h trivial
  rw [List.append_nil] at hb
  subst hb
  exact ⟨x,hx,hnone,hfollows,hnil,hlast⟩

/-- The alternative blocks after a switch failed at a block: for a broken rule the
block goes, with everything built on it. -/
def AltBlocks.afterFailure (alts : AltBlocks) (failedAt : Hash) : ChainError → AltBlocks
  | .rule _ => alts.dropSubtree failedAt
  | .corrupt _ => alts

inductive RolledBack (cx : Crypto) (U : Set RawBlock)
    (I : ChainState → MainChain cx → Prop) (s : ChainState) (p bs q : MainChain cx)
    (e : ChainError) (failedAt : Hash) : ChainError → ChainState → Prop where
  /-- A block of the branch could not be taken off again. -/
  | stuck (bs₁ bs₂ : MainChain cx) (b : MainBlock cx) (t : ChainState)
      (hbs : bs = bs₁ ++ b :: bs₂) (hkept : Kept U I t (p ++ (bs₁ ++ [b])))
      (hnot : ¬ s.KnowsRefs (p ++ bs₁).length) (hsame : SameBranches s t) :
      RolledBack cx U I s p bs q e failedAt
        (.rule (.reorganisationUnavailable (p ++ bs₁).length)) t
  /-- A block of the old tail was refused. -/
  | refused (done done' rest : MainChain cx) (b : MainBlock cx) (e' : ChainError) (t : ChainState)
      (hq : q = done ++ b :: rest) (hdone : List.Forall₂ SameBody done done')
      (hkept : Kept U I t (p ++ done')) (hsame : SameBranches s t)
      (hcheck : t.checkMain cx b.block b.raw.transactions b.info.blockHash
        ((p ++ done').length - 1) = .error e') :
      RolledBack cx U I s p bs q e failedAt e' t
  /-- The old tail is back. -/
  | restored (q' : MainChain cx) (t u : ChainState) (hall : List.Forall₂ SameBody q q')
      (hoff : Unwinds s u p bs) (hgrew : Grew u t p.length (p ++ q').length)
      (hkept : Kept U I t (p ++ q')) (henv : SameEnv s t) (hunwound : t.unwound = s.unwound)
      (halts : t.altBlocks = s.altBlocks.afterFailure failedAt e) :
      RolledBack cx U I s p bs q e failedAt e t

theorem Kept.branches (hI : Stable U I) (h : Kept U I s chain) {alts : AltBlocks}
    (halts : AltsSound cx U alts) (unwound : List UnwoundBlock) :
    Kept U I { s with altBlocks := alts, unwound := unwound } chain :=
  ⟨h.sound.congr rfl rfl rfl rfl rfl halts,hI.branches alts unwound h.inv⟩

theorem rollBack_spec (hU : UniqueIds cx U) (hI : Stable U I) {bs : MainChain cx} {c : MainBlock cx}
    (h : Kept U I s (p ++ bs)) (hlast : p.getLast? = some c) (htail : TailOn U c.info.blockHash q)
    (fork : Nat) (hfork : fork + 1 = p.length) (e : ChainError) (failedAt : Hash) :
    Ensures (ChainState.rollBack cx fork bs.length (unwoundRaws p.length q).reverse e failedAt) s
      (fun _ _ => False) (RolledBack cx U I s p bs q e failedAt) := by
  have hp : p ≠ [] := by
    rintro rfl
    simp at hlast
  unfold ChainState.rollBack
  rw [hfork, List.reverse_reverse]
  refine Ensures.bind ((unwindAll_spec hI hp bs h).mono (fun _ _ hq => hq) ?_) ?_
  · rintro e' t ⟨bs₁,b,bs₂,rfl,rfl,hkept,hnot,hsame⟩
    exact .stuck bs₁ bs₂ b t rfl hkept hnot hsame
  · rintro ⟨⟩ t ⟨hoff,hkept,hsame⟩
    refine Ensures.bind (Q := fun _ u => ∃ q', Kept U I u (p ++ q') ∧ SameBranches s u ∧
      List.Forall₂ SameBody q q' ∧ Grew t u p.length (p ++ q').length)
      ((restoreTail_spec hU hI q c hkept hlast htail).mono ?_ ?_) ?_
    · rintro ⟨⟩ u ⟨q',hkept',hsame',hall,hgrew⟩
      exact ⟨q',hkept',hsame.trans hsame',hall,hgrew⟩
    · rintro e' u ⟨done,b,rest,done',hq,hdone,hkept',hsame',hcheck⟩
      exact .refused done done' rest b e' u hq hdone hkept' (hsame.trans hsame') hcheck
    · rintro ⟨⟩ u ⟨q',hkept',hsame',hall,hgrew⟩
      cases e with
      | rule r =>
        refine Ensures.of_error (e := .rule r)
          (t := { u with altBlocks := u.altBlocks.dropSubtree failedAt }) rfl ?_
        have halts : AltsSound cx U (u.altBlocks.dropSubtree failedAt) :=
          hkept'.sound.alts.mono (fun x alt hx => dropAll_lookup_some hx)
        exact .restored q' _ t hall hoff (hgrew.congr rfl rfl rfl)
          (hkept'.branches hI halts u.unwound)
          ⟨hsame'.env.1,hsame'.env.2,hsame'.env.3,hsame'.env.4,hsame'.env.5⟩ hsame'.unwound
          (by simp only [AltBlocks.afterFailure, hsame'.altBlocks])
      | corrupt w =>
        exact Ensures.of_error (e := .corrupt w) (t := u) rfl
          (.restored q' u t hall hoff hgrew hkept' hsame'.env hsame'.unwound hsame'.altBlocks)

def ChainState.ClearsFloor (s : ChainState) (fork : Nat) : Prop :=
  ∀ tip floor, s.tip = some tip → s.cfg.bodyFloor tip = some floor → floor ≤ fork + 1

inductive SwitchFailed (cx : Crypto) (U : Set RawBlock)
    (I : ChainState → MainChain cx → Prop) (s : ChainState) (chain : MainChain cx) (hash : Hash) :
    ChainError → ChainState → Prop where
  | noBranch (e : ChainError) (hbranch : s.branchHashes hash = .error e) :
      SwitchFailed cx U I s chain hash e s
  | belowFloor (fork floor tip : Nat) (branch : List Hash)
      (hbranch : s.branchHashes hash = .ok (fork,branch)) (htip : s.tip = some tip)
      (hfloor : s.cfg.bodyFloor tip = some floor) (hlt : fork + 1 < floor) :
      SwitchFailed cx U I s chain hash
        (.rule (.reorganisationBelowBodyFloor (fork+1) floor)) s
  | noBody (fork i : Nat) (branch : List Hash)
      (hbranch : s.branchHashes hash = .ok (fork,branch)) (hi : fork < i) (hi' : i < chain.length)
      (hnone : s.rawBlock i = none) :
      SwitchFailed cx U I s chain hash (.rule (.reorganisationUnavailable i)) s
  /-- A block of the branch was refused, and the switch undone. -/
  | undone (p q bs : MainChain cx) (done rest : List Hash) (failedAt : Hash) (e e' : ChainError)
      (t u v : ChainState) (hchain : chain = p ++ q) (hp : p ≠ [])
      (hbodies : ∀ i, p.length ≤ i → i < chain.length → s.HasBody i) (hoff : Unwinds s v p q)
      (hgrew : Grew v t p.length (p ++ bs).length)
      (hbranch : s.branchHashes hash = .ok (p.length-1,done ++ failedAt :: rest))
      (hfloor : s.ClearsFloor (p.length-1))
      (hbuilt : List.Forall₂ (BuiltFrom s.altBlocks) done bs) (hkept : Kept U I t (p ++ bs))
      (hsame : SameBranches s t)
      (hrefused : RefusedOn cx t (p ++ bs) failedAt e)
      (hback : RolledBack cx U I t p bs q e failedAt e' u) :
      SwitchFailed cx U I s chain hash e' u

structure Switched (cx : Crypto) (U : Set RawBlock) (I : ChainState → MainChain cx → Prop)
    (s : ChainState) (hash : Hash) (t : ChainState) (p q bs : MainChain cx)
    (branch : List Hash) : Prop where
  nonempty : p ≠ []
  branchEq : s.branchHashes hash = .ok (p.length-1,branch)
  built : List.Forall₂ (BuiltFrom s.altBlocks) branch bs
  kept : Kept U I t (p ++ bs)
  env : SameEnv s t
  altBlocks : t.altBlocks = keepAlts (s.altBlocks.dropAll branch) p.length q
  grew : ∃ v, Unwinds s v p q ∧ Grew v t p.length (p ++ bs).length

theorem isSome_store_rawBlock (h : (s.rawBlock i).isSome = true) :
    (s.store (.rawBlock i)).isSome = true := by
  unfold ChainState.rawBlock at h
  split at h
  · cases h
  · exact h

theorem Sound.fork_split (h : Sound U s chain) {x : Hash} (hx : s.blockIndexByHash x = some i) :
    ∃ p q c, chain = p ++ q ∧ p.length = i + 1 ∧ p.getLast? = some c ∧ c.info.blockHash = x := by
  obtain ⟨c,hc,heq⟩ := h.holds.toHoldsTables.blockIndexByHash_iff.1 hx
  have hlt := (List.getElem?_eq_some_iff.1 hc).1
  refine ⟨chain.take (i+1),chain.drop (i+1),c,(List.take_append_drop _ _).symm,?_,?_,heq⟩
  · simp; omega
  · rw [List.getLast?_eq_getElem?]
    simp only [List.length_take]
    rw [show min (i+1) chain.length - 1 = i by omega, List.getElem?_take_of_lt (by omega)]
    exact hc

theorem switchTo_spec (hU : UniqueIds cx U) (hI : Stable U I) (h : Kept U I s chain) (hash : Hash) :
    Ensures (ChainState.switchTo cx hash) s
      (fun _ t => ∃ p q bs branch, chain = p ++ q ∧ Switched cx U I s hash t p q bs branch)
      (SwitchFailed cx U I s chain hash) := by
  unfold ChainState.switchTo
  refine Ensures.of_run (run_get_bind _ _) ?_
  cases hbranch : s.branchHashes hash with
  | error e =>
    exact Ensures.of_error (run_bind_of_error rfl) (.noBranch e hbranch)
  | ok r =>
    obtain ⟨fork,branch⟩ := r
    obtain ⟨x,hx,_,hfollows,_,_⟩ := branchHashes_ok hbranch
    obtain ⟨p,q,c,rfl,hplen,hlast,hcx⟩ := h.sound.fork_split hx
    have hp : p ≠ [] := by
      rintro rfl
      simp at hlast
    have hfork : p.length - 1 = fork := by omega
    have hqlen : (p ++ q).length = p.length + q.length := by simp
    have htip : s.tip = some (fork + q.length) := by
      rw [h.sound.holds.tip]
      exact MainChain.tip_eq_some_iff.2 (by omega)
    refine Ensures.of_run (run_bind_of_ok (a := (fork,branch)) (t := s) rfl) ?_
    simp only [htip]
    refine Ensures.of_run (run_bind_of_ok (a := fork + q.length) (t := s) rfl) ?_
    have hsub : fork + q.length - fork = q.length := by omega
    have hrest : s.ClearsFloor fork → Ensures (ChainState.exchangeTail cx s fork
        (List.range' (fork+1) (fork + q.length - fork)).reverse branch) s
        (fun _ t => ∃ p' q' bs branch, p ++ q = p' ++ q' ∧ Switched cx U I s hash t p' q' bs branch)
        (SwitchFailed cx U I s (p ++ q) hash) := by
      intro hclears
      rw [hsub, ← hplen]
      unfold ChainState.exchangeTail
      rcases collectUnwound_cases q [] (by simpa using h.sound.holds.toHoldsTables) with
        ⟨hcollect,hbodies⟩ | ⟨i,hi,hi',hnone,hcollect⟩
      · rw [hcollect]
        refine Ensures.of_run (run_bind_of_ok (a := (unwoundRaws p.length q).reverse) (t := s) rfl) ?_
        refine Ensures.bind ((unwindAll_spec hI hp q h).mono (fun _ _ hq => hq) ?_) ?_
        · -- every block that leaves has its body, so none of them is stuck
          rintro e t ⟨q₁,b,q₂,rfl,_,_,hnot,_⟩
          refine absurd (.inr ?_) hnot
          exact isSome_store_rawBlock (hbodies _ (by simp) (by simp))
        · rintro ⟨⟩ t ⟨hoff,hkept,hsame⟩
          refine Ensures.bind
            ((applyBranch_spec hU hI branch 0 c hkept hlast
              (by rw [hsame.altBlocks, hcx]; exact hfollows)).mono
                (fun _ _ hq => hq) (fun _ _ hfalse => hfalse.elim)) ?_
          rintro ⟨applied,failure⟩ u ⟨bs,hkept',hsame',happlied,hgrew,hcases⟩
          rw [hsame.altBlocks] at hcases
          have hsame'' := hsame.trans hsame'
          simp only [Nat.zero_add] at happlied
          subst happlied
          rcases hcases with ⟨hnone,hall⟩ | ⟨done,y,rest,e,rfl,hdone,hsome,href⟩
          · simp only at hnone
            subst hnone
            obtain ⟨unwound,hkeep⟩ := keepTail_eq p.length q
              { u with altBlocks := u.altBlocks.dropAll branch }
            have hdropped : AltsSound cx U (u.altBlocks.dropAll branch) :=
              hkept'.sound.alts.mono (fun _ _ hx => dropAll_lookup_some hx)
            have halts := hdropped.keepAlts h.sound.linked hlast
            refine Ensures.of_run (run_modify_bind _ _ _) (Ensures.of_ok hkeep ?_)
            refine ⟨p,q,bs,branch,rfl,hp,hfork ▸ hbranch,hall,hkept'.branches hI halts unwound,
              ⟨hsame''.env.1,hsame''.env.2,hsame''.env.3,hsame''.env.4,hsame''.env.5⟩,?_,
              t,hoff,hgrew.congr rfl rfl rfl⟩
            simp only [hsame''.altBlocks]
          · simp only at hsome
            subst hsome
            have htail := Linked.tailOn h.sound.linked hlast
            refine (rollBack_spec hU hI hkept' hlast htail fork (by omega) e y).mono
              (fun _ _ hfalse => hfalse.elim) ?_
            intro e' v hback
            exact .undone p q bs done rest y e e' u v t rfl hp
              (fun i hi hi' => isSome_store_rawBlock (hbodies i hi (by simpa using hi'))) hoff hgrew
              (hfork ▸ hbranch) (hfork ▸ hclears) hdone hkept' hsame'' href hback
      · rw [hcollect]
        exact Ensures.of_error (run_bind_of_error rfl)
          (.noBody fork i branch hbranch (by omega) (by omega) hnone)
    cases hfloor : s.cfg.bodyFloor (fork + q.length) with
    | none =>
      refine Ensures.of_run (run_bind_of_ok (a := ⟨⟩) (t := s) rfl) (hrest ?_)
      intro tip floor ht hf
      rw [htip] at ht
      cases ht
      rw [hfloor] at hf
      cases hf
    | some floor =>
      by_cases hlt : fork + 1 < floor
      · refine Ensures.of_error (run_bind_of_error (t := s) ?_)
          (.belowFloor fork floor _ branch hbranch htip hfloor hlt)
        simp [liftExcept, refuseIf, hlt]
      · refine Ensures.of_run (run_bind_of_ok (a := ⟨⟩) (t := s) ?_) (hrest ?_)
        · simp [liftExcept, refuseIf, hlt]
        · intro tip floor' ht hf
          rw [htip] at ht
          cases ht
          rw [hfloor] at hf
          cases hf
          omega

end Wrkz
