import Wrkz.Library.Following
import Wrkz.Library.Handler
import Wrkz.Chain.AddBlock

/-!
A block that goes on the main chain has all its transactions in the transaction
index, at the tip or at the end of a switch, whatever state the node was in.
-/

set_option autoImplicit false

namespace Wrkz

open Library

namespace ChainState

variable {cx : Crypto} {s : ChainState} {block : BlockTemplate}

def Indexes (s : ChainState) (block : BlockTemplate) : Prop :=
  ∀ h ∈ block.transactionHashes, (s.store (.transactionIndex h)).isSome = true

def SameAlts (s t : ChainState) : Prop := t.altBlocks = s.altBlocks

theorem sameAlts_trans (s t u : ChainState) (h : SameAlts s t) (h' : SameAlts t u) : SameAlts s u :=
  Eq.trans h' h

theorem Indexes.congr {t : ChainState} (h : s.Indexes block) (hstore : t.store = s.store) :
    t.Indexes block := by
  intro x hx
  rw [hstore]
  exact h x hx

theorem ensures_liftExcept_bind {α β : Type} {x : Except ChainError β} {f : β → ChainM α}
    {Q : α → ChainState → Prop} {E : ChainError → ChainState → Prop}
    (hok : ∀ b, x = .ok b → Ensures (f b) s Q E) (herr : ∀ e, x = .error e → E e s) :
    Ensures (liftExcept x >>= f) s Q E := by
  cases x with
  | ok b => exact hok b rfl
  | error e => exact herr e rfl

theorem ensures_updateBlockMedianSize (s : ChainState) :
    Ensures updateBlockMedianSize s (fun _ t => t.store = s.store ∧ SameAlts s t)
      fun _ t => SameAlts s t := by
  unfold updateBlockMedianSize Ensures
  dsimp only
  cases s.medianSizeAtTip with
  | ok median => exact ⟨rfl,rfl⟩
  | error e => exact rfl

theorem ensures_addToMain (cx : Crypto) (block : BlockTemplate) (raw : RawBlock) (hash : Hash)
    (prev : Nat) (s : ChainState) :
    Ensures (addToMain cx block raw hash prev) s (fun _ t => t.Indexes block ∧ SameAlts s t)
      fun _ _ => True := by
  unfold addToMain
  refine .get_bind (ensures_liftExcept_bind (fun a _ => ?_) fun _ _ => trivial)
  refine .bind (Q := fun _ t => t.Indexes block ∧ SameAlts s t) ?_
    fun _ _ h => .pure h
  unfold pushBlock
  cases hcoinbase : block.baseTransaction.hash cx with
  | error e => exact .of_error (e := _) (t := s) rfl trivial
  | ok coinbaseHash =>
    refine (ensures_updateBlockMedianSize _).mono ?_ fun _ _ _ => trivial
    rintro _ t ⟨hstore,halts⟩
    refine ⟨fun h hh => ?_,halts⟩
    rw [hstore]
    have hpushed := s.pushed_transactionIndex (prev+1) block raw coinbaseHash a h
    rw [if_pos (List.mem_cons_of_mem _ hh)] at hpushed
    exact Option.isSome_iff_exists.2 ⟨_,hpushed⟩

theorem sameAlts_unwindBlock (cx : Crypto) (index : Nat) : StepsBy SameAlts (unwindBlock cx index) := by
  intro s
  refine Ensures.finalState (P := SameAlts s) ?_
  unfold unwindBlock
  refine Ensures.get_bind (ensures_liftExcept_bind (fun _ _ => ?_) fun _ _ => rfl)
  refine ensures_liftExcept_bind (fun r _ => ?_) fun _ _ => rfl
  refine .bind (Q := fun _ t => SameAlts s t) (.of_ok rfl rfl) fun _ t ht => ?_
  refine .bind (Q := fun _ u => SameAlts s u) ?_ fun _ u hu => ?_
  · unfold reloadRecent Ensures
    dsimp only
    cases t.tip with
    | none => exact ht
    | some tip =>
      dsimp only
      generalize t.reloadInfos _ = infos
      cases infos with
      | ok infos => exact ht
      | error e => exact ht
  · exact (ensures_updateBlockMedianSize u).mono (fun _ _ h => h.2.trans hu)
      fun _ _ h => Eq.trans h hu

theorem sameAlts_unwindAll (cx : Crypto) (indexes : List Nat) :
    StepsBy SameAlts (unwindAll cx indexes) := by
  induction indexes with
  | nil => exact .pure (fun s => (rfl : SameAlts s s)) _
  | cons index indexes ih =>
    exact .bind sameAlts_trans (sameAlts_unwindBlock cx index) fun _ => ih

variable {alt : AltBlock} {branch : List Hash} {raw : RawBlock} {hash : Hash} {fork : Nat}

theorem ensures_applyBranch {h : Hash} (hlast : branch.getLast? = some h)
    (hparsed : BlockTemplate.fromBytes alt.blockBlob = .ok block) :
    ∀ {s : ChainState} (n : Nat), s.altBlocks.lookup h = some alt →
      Ensures (applyBranch cx branch n) s (fun r t => r.2 = none → t.Indexes block)
        fun _ _ => True := by
  induction branch with
  | nil => cases hlast
  | cons x rest ih =>
    intro s n halt
    cases hx : s.altBlocks.lookup x with
    | none => exact .of_error (by unfold applyBranch; simp only [hx]; rfl) trivial
    | some altX =>
      cases hblock : BlockTemplate.fromBytes altX.blockBlob with
      | error e =>
        exact .of_error (by unfold applyBranch; simp only [hx, hblock]; rfl) trivial
      | ok blockX =>
        have hadd := ensures_addToMain cx blockX ⟨altX.blockBlob,altX.txBlobs⟩ x
          (altX.index-1) s
        cases hrun : addToMain cx blockX ⟨altX.blockBlob,altX.txBlobs⟩ x (altX.index-1) s with
        | error e t =>
          exact .of_ok (applyBranch_cons_error hx hblock hrun) fun hnone => by cases hnone
        | ok outcome t =>
          obtain ⟨hindexed,hsame⟩ := hadd.of_ok_of_eq hrun
          refine .of_run (applyBranch_cons_ok rest n hx hblock hrun) ?_
          cases rest with
          | nil =>
            -- the block on top is the last of the branch
            obtain rfl : x = h := by simpa using hlast
            rw [hx] at halt
            cases halt
            rw [hparsed] at hblock
            cases hblock
            exact .pure fun _ => hindexed
          | cons y rest => exact ih (by simpa using hlast) (n+1) (by rw [hsame]; exact halt)

theorem branchLoop_suffix {fuel : Nat} {cursor : Hash} {acc branch : List Hash}
    (h : s.branchLoop fuel cursor acc = .ok (fork,branch)) : acc <:+ branch := by
  induction h using branchLoop_induction with
  | main => exact List.suffix_refl _
  | held _ _ _ _ _ _ _ ih => exact (List.suffix_cons _ _).trans ih

theorem branchHashes_getLast? (halt : s.altBlocks.lookup hash = some alt)
    (h : s.branchHashes hash = .ok (fork,branch)) : branch.getLast? = some hash := by
  unfold branchHashes branchLoop at h
  rw [halt] at h
  cases hlen : s.altBlocks.length with
  | zero =>
    rw [hlen] at h
    cases h
  | succ fuel =>
    rw [hlen] at h
    obtain ⟨front,rfl⟩ := branchLoop_suffix h
    simp

theorem ensures_keepTail (tail : List UnwoundRaw) :
    ∀ {s : ChainState}, s.Indexes block →
      Ensures (keepTail tail) s (fun _ t => t.Indexes block) fun _ _ => True := by
  induction tail with
  | nil => exact fun h => .pure h
  | cons u tail ih =>
    intro s h
    unfold keepTail
    refine ensures_liftExcept_bind (fun b _ => ?_) fun _ _ => trivial
    exact .modify_bind (ih (h.congr rfl))

theorem ensures_rollBack {Q : PUnit.{1} → ChainState → Prop} (fork applied : Nat)
    (unwound : List UnwoundRaw) (e : ChainError) (failedAt : Hash) :
    Ensures (rollBack cx fork applied unwound e failedAt) s Q fun _ _ => True := by
  unfold rollBack
  refine .bind (Q := fun _ _ => True) (by unfold Ensures; split <;> trivial) fun _ _ _ => ?_
  refine .bind (Q := fun _ _ => True) (by unfold Ensures; split <;> trivial) fun _ _ _ => ?_
  cases e with
  | rule r => exact .modify_bind (.of_throw trivial)
  | corrupt m => exact .pure_bind (.of_throw trivial)

theorem ensures_switchTo (cx : Crypto) (halt : s.altBlocks.lookup hash = some alt)
    (hparsed : BlockTemplate.fromBytes alt.blockBlob = .ok block) :
    Ensures (switchTo cx hash) s (fun _ t => t.Indexes block) fun _ _ => True := by
  unfold switchTo
  refine .get_bind (ensures_liftExcept_bind (fun r hbranch => ?_) fun _ _ => trivial)
  obtain ⟨fork,branch⟩ := r
  refine ensures_liftExcept_bind (fun tip _ => ?_) fun _ _ => trivial
  refine ensures_liftExcept_bind (fun _ _ => ?_) fun _ _ => trivial
  unfold exchangeTail
  refine ensures_liftExcept_bind (fun unwound _ => ?_) fun _ _ => trivial
  refine .bind (Q := fun _ t => SameAlts s t) ?_ fun _ t ht => ?_
  · have hunwind := sameAlts_unwindAll cx
      (List.range' (fork+1) (tip - fork)).reverse s
    unfold Ensures
    cases hrun : unwindAll cx (List.range' (fork+1) (tip - fork)).reverse s with
    | ok _ t =>
      rw [hrun] at hunwind
      exact hunwind
    | error _ _ => trivial
  have hheld : t.altBlocks.lookup hash = some alt := by
    rw [ht]
    exact halt
  refine .bind (ensures_applyBranch (branchHashes_getLast? halt hbranch) hparsed 0 hheld)
    fun r u hu => ?_
  obtain ⟨applied,failure⟩ := r
  cases failure with
  | some failure => exact ensures_rollBack _ _ _ _ _
  | none => exact .modify_bind (ensures_keepTail unwound ((hu rfl).congr rfl))

theorem indexes_pruneAlternativeChains (h : s.Indexes block) (exclude : Option Hash)
    (outcome : AddOutcome) :
    Ensures (pruneAlternativeChains exclude >>= fun _ => pure outcome : ChainM AddOutcome) s
      (fun _ t => t.Indexes block) fun _ _ => True := by
  refine .modify_bind (.pure ?_)
  split
  · exact h
  · exact h.congr rfl

theorem ensures_addToAlternative (hparsed : BlockTemplate.fromBytes raw.block = .ok block)
    (hash : Hash) (prev : Nat) (parentAlt : Option Hash) (s : ChainState) :
    Ensures (addToAlternative cx block raw hash prev parentAlt) s
      (fun outcome t => outcome.status ≠ .alternative → t.Indexes block) fun _ _ => True := by
  unfold addToAlternative
  refine .get_bind (ensures_liftExcept_bind (fun r _ => ?_) fun _ _ => trivial)
  obtain ⟨fork,infos⟩ := r
  refine ensures_liftExcept_bind (fun r _ => ?_) fun _ _ => trivial
  obtain ⟨info,difficulty⟩ := r
  refine .bind (Q := fun _ t => t = s.withAlt hash (newAlt block raw prev info))
    (.of_ok rfl rfl) ?_
  rintro _ _ rfl
  dsimp only
  split
  · have hheld : (s.withAlt hash (newAlt block raw prev info)).altBlocks.lookup hash =
        some (newAlt block raw prev info) := AList.lookup_insert _
    have hswitch := ensures_switchTo cx hheld hparsed
    refine hswitch.bind fun _ t ht => ?_
    exact (indexes_pruneAlternativeChains ht _ _).mono (fun _ _ h _ => h) fun _ _ h => h
  · refine .pure_bind (.modify_bind (.pure fun h => absurd rfl h))

theorem addBlockDetailed_indexes (cx : Crypto)
    (hparsed : BlockTemplate.fromBytes raw.block = .ok block) (s : ChainState) :
    Ensures (addBlockDetailed cx raw) s
      (fun report t => report.outcome.status ≠ .alternative → t.Indexes block)
      fun _ _ => True := by
  unfold addBlockDetailed
  refine .modify_bind (.bind (Q := fun outcome t =>
    outcome.status ≠ .alternative → t.Indexes block) ?_ fun outcome t ht => ?_)
  · unfold addBlockInner
    refine ensures_liftExcept_bind (fun b hb => ?_) fun _ _ => trivial
    rw [hparsed] at hb
    cases hb
    refine ensures_liftExcept_bind (fun hash _ => ?_) fun _ _ => trivial
    refine .get_bind (ensures_liftExcept_bind (fun _ _ => ?_) fun _ _ => trivial)
    refine ensures_liftExcept_bind (fun parent _ => ?_) fun _ _ => trivial
    cases parent with
    | mainTip prev =>
      refine .bind (ensures_addToMain cx block raw hash prev _) fun outcome t ht => ?_
      exact (indexes_pruneAlternativeChains ht.1 none outcome).mono (fun _ _ h _ => h)
        fun _ _ h => h
    | mainDepth prev => exact ensures_addToAlternative hparsed hash prev none _
    | alternative prevHash prev =>
      exact ensures_addToAlternative hparsed hash prev (some prevHash) _
  · exact .of_ok rfl fun h => (ht h).congr rfl

end ChainState

end Wrkz
