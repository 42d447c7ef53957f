import Wrkz.Chain.Crash

/-!
Stopping a node and opening its store again. The tip, the window of infos and the
median are read back as they stood; only the branches are lost, so a node that held
none goes on as if it had not stopped.
-/

set_option autoImplicit false

namespace Wrkz

open Library ChainState

namespace ChainState

variable {cx : Crypto} {s : ChainState}

theorem ordinary_rewindOps {indexes : List Nat} {scratch : UnwindScratch}
    {r : List WriteOp × UnwindScratch} (h : s.rewindOps cx indexes scratch = .ok r) :
    ∀ op ∈ r.1, Ordinary op := by
  induction indexes generalizing scratch r with
  | nil =>
    cases h
    simp
  | cons index indexes ih =>
    unfold rewindOps at h
    simp only [bind_ok_iff] at h
    obtain ⟨top,htop,rest,hrest,heq⟩ := h
    cases heq
    intro op hop
    rcases List.mem_append.1 hop with hop | hop
    · exact ordinary_unwindOps htop op hop
    · exact ih hrest op hop

theorem ordinary_restoreOutputRefs {indexes : List Nat} {ops : List WriteOp}
    (h : s.restoreOutputRefs cx indexes = .ok ops) : ∀ op ∈ ops, Ordinary op := by
  induction indexes generalizing ops with
  | nil =>
    cases h
    simp
  | cons index indexes ih =>
    unfold restoreOutputRefs at h
    split at h
    · exact ih h
    · simp only [bind_ok_iff] at h
      obtain ⟨refs,_,rest,hrest,heq⟩ := h
      cases refs with
      | none =>
        cases heq
        exact ih hrest
      | some refs =>
        cases heq
        intro op hop
        rcases List.mem_cons.1 hop with rfl | hop
        · trivial
        · exact ih hrest op hop

theorem stepsBy_rewindTo (top : Nat) : StepsBy Journaled (rewindTo cx top) := by
  unfold rewindTo
  refine StepsBy.get_bind fun s => ?_
  cases s.tip with
  | none => exact Journaled.refl s
  | some tip =>
    dsimp only
    split
    · exact Journaled.refl s
    · refine journaled_liftExcept_bind fun _ _ => journaled_liftExcept_bind fun r hr => ?_
      refine journaled_liftExcept_bind fun restored hrestored => ?_
      let t : ChainState := { s with
        store := s.store.writeBatch
          (r.1 ++ r.2.finish ++ restored ++ [(⟨.metaTip, some top⟩ : WriteOp)])
        tip := some top
        altBlocks := ∅
        unwound := [] }
      have hbatch : Journaled s t := by
        refine .batch rfl rfl fun op hop => ?_
        simp only [List.mem_append, List.mem_singleton] at hop
        rcases hop with ((hop | hop) | hop) | rfl
        · exact ordinary_rewindOps hr op hop
        · exact ordinary_finish r.2 op hop
        · exact ordinary_restoreOutputRefs hrestored op hop
        · trivial
      refine hbatch.trans (StepsBy.bind journaled_trans stepsBy_reloadRecent (fun _ => ?_) t)
      exact StepsBy.bind journaled_trans stepsBy_updateBlockMedianSize
        fun _ => StepsBy.pure Journaled.refl _

theorem runCalls_settings (hs : Settings s) (calls : List Call) :
    Settings (runCalls cx calls s) := by
  induction calls generalizing s with
  | nil => exact hs
  | cons call calls ih =>
    have hclock (now : Nat) : Settings (s.atClock now) :=
      ⟨hs.version,hs.liteHeight,hs.network,hs.pruneDepth⟩
    cases call with
    | addBlock now raw => exact ih ((stepsBy_addBlock raw _).settings (hclock now))
    | rewindTo now top => exact ih ((stepsBy_rewindTo top _).settings (hclock now))

theorem addBlock_cleared (raw : RawBlock) (s : ChainState) :
    addBlock cx raw s.cleared = addBlock cx raw s := rfl

end ChainState

def answer {α : Type} : EStateM.Result ChainError ChainState α → Except ChainError α
  | .ok a _ => .ok a
  | .error e _ => .error e

/-- What `add_block` answers to blocks offered one after the other. -/
def outcomes (cx : Crypto) : List (Nat × RawBlock) → ChainState → List (Except ChainError AddOutcome)
  | [], _ => []
  | (now,raw) :: offers, s =>
    answer (addBlock cx raw (s.atClock now)) ::
      outcomes cx offers (finalState (addBlock cx raw (s.atClock now)))

/-- Two states that differ in their report and their clock alone take later blocks alike. -/
theorem outcomes_congr {cx : Crypto} {s t : ChainState}
    (h : ∀ now, (s.atClock now).cleared = (t.atClock now).cleared)
    (offers : List (Nat × RawBlock)) :
    outcomes cx offers s = outcomes cx offers t ∧
      (runBlocks cx offers s).store = (runBlocks cx offers t).store := by
  cases offers with
  | nil =>
    have hstore := congrArg store (h 0)
    exact ⟨rfl,hstore⟩
  | cons offer offers =>
    obtain ⟨now,raw⟩ := offer
    have hrun : addBlock cx raw (s.atClock now) =
        addBlock cx raw (t.atClock now) := by
      rw [← addBlock_cleared, h now, addBlock_cleared]
    simp only [outcomes, runBlocks_cons, hrun, and_self]

/-- After any run of `add_block` and `rewind_to`, `open` on the store left behind gives
the tip, the recent infos and the median of the running state. If the running state holds
no alternative blocks, the two answer every later sequence of blocks alike and end with
the same store. -/
theorem reopening_changes_nothing {cx : Crypto} {cfg : Config} {checkpoints : Checkpoints}
    {clock now : Nat} {s₀ : ChainState} {calls : List Call}
    (hopen : openOrGenesis cx cfg checkpoints clock = .ok ⟨⟩ s₀)
    (hU : UniqueIds cx (blocksOf cx (calls.filterMap Call.raw?))) :
    ∃ t, openStore
        (unopened cfg checkpoints now (runCalls cx calls s₀).store) = .ok ⟨⟩ t ∧
      t.tip = (runCalls cx calls s₀).tip ∧ t.recent = (runCalls cx calls s₀).recent ∧
      t.blockMedianSize = (runCalls cx calls s₀).blockMedianSize ∧
      ((runCalls cx calls s₀).altBlocks = ∅ → ∀ offers : List (Nat × RawBlock),
        outcomes cx offers t = outcomes cx offers (runCalls cx calls s₀) ∧
          (runBlocks cx offers t).store = (runBlocks cx offers (runCalls cx calls s₀)).store) := by
  obtain ⟨chain,hkept⟩ := runCalls_sound hopen hU
  have hset : Settings (runCalls cx calls s₀) :=
    runCalls_settings (settings_of_open hopen) calls
  have hread := openStore_eq hkept.sound hset checkpoints now
  rw [hkept.inv.cfg] at hread
  refine ⟨_,hread,rfl,rfl,rfl,fun hnone offers => outcomes_congr (fun later => ?_) offers⟩
  generalize runCalls cx calls s₀ = s at hkept hnone
  obtain ⟨hcfg,hcheckpoints,hhint,hstrict⟩ := hkept.inv
  cases s
  simp only at hnone hcheckpoints hhint hstrict
  subst hnone hcheckpoints hhint hstrict
  rfl

/-- The sample chain gave way to a heavier branch and was then taken back to its first
block: the rewind has forgotten the branches. -/
theorem reopening_changes_nothing_sample :
    (runCalls sampleCrypto sampleCalls (sampleNode {} .none 1000)).altBlocks = ∅ ∧
    ∃ t, openStore (unopened {} .none 2000
        (runCalls sampleCrypto sampleCalls (sampleNode {} .none 1000)).store) = .ok ⟨⟩ t ∧
      t.tip = (runCalls sampleCrypto sampleCalls (sampleNode {} .none 1000)).tip := by
  have hunique : UniqueIds sampleCrypto
      (blocksOf sampleCrypto (sampleCalls.filterMap Call.raw?)) := by decide +kernel
  have hnone : (runCalls sampleCrypto sampleCalls (sampleNode {} .none 1000)).altBlocks.entries =
      [] := by decide +kernel
  obtain ⟨t,hread,htip,_⟩ := reopening_changes_nothing (sampleNode_open {} .none 1000) hunique
  exact ⟨AList.ext hnone,t,hread,htip⟩

end Wrkz
