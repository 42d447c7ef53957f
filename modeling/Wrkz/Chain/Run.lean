import Wrkz.Chain.Branches

/-!
Runs: a fresh node at genesis, then calls of `add_block` and `rewind_to`, each
with its own reading of the clock. A property every transition keeps holds after
every run.
-/

set_option autoImplicit false

namespace Wrkz

open Library

def ChainState.atClock (s : ChainState) (now : Nat) : ChainState := { s with clock := now }

structure Configured (cfg : Config) (checkpoints : Checkpoints) (s : ChainState) : Prop where
  cfg : s.cfg = cfg
  checkpoints : s.checkpoints = checkpoints
  powHint : s.powHint = none
  strict : s.strictTransactionList = true

inductive Call where
  | addBlock (now : Nat) (raw : RawBlock)
  | rewindTo (now top : Nat)
  deriving DecidableEq, Repr

namespace Call

def run (cx : Crypto) : Call → ChainState → ChainState
  | .addBlock now raw, s => finalState (ChainState.addBlock cx raw (s.atClock now))
  | .rewindTo now top, s => finalState (ChainState.rewindTo cx top (s.atClock now))

def raw? : Call → Option RawBlock
  | .addBlock _ raw => some raw
  | .rewindTo _ _ => none

def now : Call → Nat
  | .addBlock now _ => now
  | .rewindTo now _ => now

end Call

def runCalls (cx : Crypto) (calls : List Call) (s : ChainState) : ChainState :=
  calls.foldl (fun s call => call.run cx s) s

/-- Blocks offered to `add_block` one after the other, each with its clock. -/
def runBlocks (cx : Crypto) (offers : List (Nat × RawBlock)) (s : ChainState) : ChainState :=
  offers.foldl (fun s offer => (Call.addBlock offer.1 offer.2).run cx s) s

@[simp] theorem runBlocks_nil (cx : Crypto) (s : ChainState) : runBlocks cx [] s = s := rfl

@[simp] theorem runBlocks_cons (cx : Crypto) (now : Nat) (raw : RawBlock)
    (offers : List (Nat × RawBlock)) (s : ChainState) :
    runBlocks cx ((now,raw) :: offers) s =
      runBlocks cx offers (finalState (ChainState.addBlock cx raw (s.atClock now))) := rfl

theorem runBlocks_append (cx : Crypto) (before after : List (Nat × RawBlock)) (s : ChainState) :
    runBlocks cx (before ++ after) s = runBlocks cx after (runBlocks cx before s) :=
  List.foldl_append

section

variable {cx : Crypto} {U : Set RawBlock} {I : ChainState → MainChain cx → Prop}
  {s : ChainState} {chain : MainChain cx}

variable {t : ChainState} {raw : RawBlock} {hash : Hash}

theorem SwitchFailed.kept {e : ChainError}
    (hs : Kept U I s chain) (h : SwitchFailed cx U I s chain hash e t) :
    ∃ chain', Kept U I t chain' ∧
      (chain' = chain ∨ ∃ p q q' branch, chain = p ++ q ∧ chain' = p ++ q' ∧ p ≠ [] ∧
        s.branchHashes hash = .ok (p.length-1,branch)) := by
  cases h with
  | noBranch => exact ⟨chain,hs,.inl rfl⟩
  | belowFloor => exact ⟨chain,hs,.inl rfl⟩
  | noBody => exact ⟨chain,hs,.inl rfl⟩
  | undone p q bs done rest failedAt e e' t u v hchain hp hbodies hoff hgrew hbranch hfloor hbuilt
      hkept hsame href hback =>
    cases hback with
    | stuck bs₁ bs₂ b t hbs hkept' => exact ⟨_,hkept',.inr ⟨p,q,_,_,hchain,rfl,hp,hbranch⟩⟩
    | refused done done' rest b e t hq hdone hkept' =>
      exact ⟨_,hkept',.inr ⟨p,q,_,_,hchain,rfl,hp,hbranch⟩⟩
    | restored q' t v hall hoff' hgrew' hkept' => exact ⟨_,hkept',.inr ⟨p,q,_,_,hchain,rfl,hp,hbranch⟩⟩

/-- What `add_block` does to the chain: it stays, it grows by one block, or it is
replaced above the fork of a branch that a passed block made heavier. -/
def ChainStep (cx : Crypto) (s : ChainState) (raw : RawBlock) (chain chain' : MainChain cx) :
    Prop :=
  chain' = chain ∨ (∃ b, chain' = chain ++ [b]) ∨
    ∃ p q q' block hash prev parentAlt fork infos info d, chain = p ++ q ∧ chain' = p ++ q' ∧
      PassedAlternative cx s raw block hash prev parentAlt fork infos info d ∧
      s.mainCumulative < info.cumulativeDifficulty ∧ p.length = fork + 1

theorem PassedAlternative.fork_eq {block : BlockTemplate} {prev d fork n : Nat}
    {parentAlt : Option Hash} {infos : List BlockInfo} {info : BlockInfo} {branch : List Hash}
    (h : PassedAlternative cx s raw block hash prev parentAlt fork infos info d)
    (hbranch : (s.withAlt hash (newAlt block raw prev info)).branchHashes hash = .ok (n,branch)) :
    n = fork := by
  obtain ⟨branch',hbranch',_⟩ := h.branchHashes
  have heq := branchHashes_withAlt (newAlt block raw prev info) h.presented.fresh hbranch'
  rw [hbranch] at heq
  simp only [Except.ok.injEq, Prod.mk.injEq] at heq
  exact heq.1

theorem addBlock_step (hU : UniqueIds cx U) (hI : Stable U I) (h : Kept U I s chain) (hknown : raw ∈ U) :
    ∃ chain', Kept U I (finalState (ChainState.addBlock cx raw s)) chain' ∧
      ChainStep cx s.cleared raw chain chain' := by
  refine Ensures.finalState (P := fun t => ∃ chain', Kept U I t chain' ∧
    ChainStep cx s.cleared raw chain chain') ((addBlock_spec hU hI h hknown).mono ?_ ?_)
  · rintro outcome t ⟨exclude,u,_,haccepted,rfl⟩
    cases haccepted with
    | main prev d b hpres hraw hprev hparent hcheck hkept =>
      exact ⟨_,(hkept.pruned hI none).cleared hI,.inr (.inl ⟨b,rfl⟩)⟩
    | alternative block hash prev d parentAlt fork infos info hpass hle hkept =>
      exact ⟨_,(hkept.pruned hI (some hash)).cleared hI,.inl rfl⟩
    | switched block hash prev d parentAlt fork infos info hpass hlt hkept t p q bs branch hchain
        hswitched =>
      refine ⟨_,(hswitched.kept.pruned hI (some hash)).cleared hI,.inr (.inr ?_)⟩
      have hfork := hpass.fork_eq hswitched.branchEq
      have hlen := List.length_pos_iff.2 hswitched.nonempty
      exact ⟨p,q,bs,block,hash,prev,parentAlt,fork,infos,info,d,hchain,rfl,hpass,hlt,by omega⟩
  · intro e t hrefused
    cases hrefused with
    | switch block hash prev d parentAlt fork infos info e t hpass hlt hkept hfailed =>
      obtain ⟨chain',hkept',hcases⟩ := hfailed.kept hkept
      refine ⟨chain',hkept',?_⟩
      rcases hcases with hsame | ⟨p,q,q',branch,hchain,hchain',hp,hbranch⟩
      · exact .inl hsame
      · have hfork := hpass.fork_eq hbranch
        have hlen := List.length_pos_iff.2 hp
        exact .inr (.inr ⟨p,q,q',block,hash,prev,parentAlt,fork,infos,info,d,hchain,hchain',hpass,
          hlt,by omega⟩)
    | unparsed | unhashed | held | orphan | main | noBranch | alternative =>
      exact ⟨chain,h.cleared hI,.inl rfl⟩

theorem Sound.atClock (h : Sound U s chain) (now : Nat) : Sound U (s.atClock now) chain :=
  h.congr rfl rfl rfl rfl rfl h.alts

theorem Kept.atClock (h : Kept U I s chain) (now : Nat) (hI : I (s.atClock now) chain) :
    Kept U I (s.atClock now) chain :=
  ⟨h.sound.atClock now,hI⟩

def Rewindable (U : Set RawBlock) (I : ChainState → MainChain cx → Prop) : Prop :=
  ∀ {s t : ChainState} {p q : MainChain cx}, Sound U s (p ++ q) → p ≠ [] → I s (p ++ q) →
    TakenOff s t p q → I t p

theorem rewindTo_step (hI : Rewindable U I) (h : Kept U I s chain) (top : Nat) :
    ∃ chain', Kept U I (finalState (ChainState.rewindTo cx top s)) chain' ∧
      (chain' = chain ∧ finalState (ChainState.rewindTo cx top s) = s ∨
        chain' = chain.take (top+1) ∧
          (finalState (ChainState.rewindTo cx top s)).altBlocks = ∅) := by
  have hlen := List.length_pos_iff.2 h.sound.nonempty
  have htip : s.tip = some (chain.length-1) := by
    rw [h.sound.holds.tip]
    exact MainChain.tip_eq_some_iff.2 (by omega)
  by_cases hle : chain.length - 1 ≤ top
  · have hrun : ChainState.rewindTo cx top s = .ok 0 s := by
      unfold ChainState.rewindTo
      rw [run_get_bind]
      simp only [htip, hle, if_true]
      rfl
    rw [hrun]
    exact ⟨chain,h,.inl ⟨rfl,rfl⟩⟩
  · have hsplit : chain = chain.take (top+1) ++ chain.drop (top+1) :=
      (List.take_append_drop _ _).symm
    have hp : (chain.take (top+1)).length = top + 1 := by simp; omega
    have hq : chain.drop (top+1) ≠ [] := by
      intro hnil
      have := List.drop_eq_nil_iff.1 hnil
      omega
    rcases HoldsChain.rewindTo_cases (hsplit ▸ h.sound.holds) hp hq with
      ⟨t,hrun,hoff,halts,_⟩ | ⟨e,hrun⟩
    · rw [hrun]
      have hne : chain.take (top+1) ≠ [] := by
        intro hnil
        rw [hnil] at hp
        simp at hp
      have halts' : AltsSound cx U t.altBlocks := by
        intro x alt hx
        rw [halts] at hx
        simp at hx
      exact ⟨_,⟨⟨hoff.holds,hne,(hsplit ▸ h.sound.linked).of_append,halts'⟩,
        hI (hsplit ▸ h.sound) hne (hsplit ▸ h.inv) hoff.toTakenOff⟩,.inr ⟨rfl,halts⟩⟩
    · rw [hrun]
      exact ⟨chain,h,.inl ⟨rfl,rfl⟩⟩

theorem stable_true : Stable U (fun (_ : ChainState) (_ : MainChain cx) => True) where
  push _ _ _ _ _ _ := trivial
  takeOff _ _ _ _ := trivial
  branches _ _ _ := trivial

theorem Configured.sameEnv {cfg : Config} {checkpoints : Checkpoints}
    (h : Configured cfg checkpoints s) (henv : SameEnv s t) : Configured cfg checkpoints t :=
  ⟨henv.cfg.trans h.cfg,henv.checkpoints.trans h.checkpoints,henv.powHint.trans h.powHint,
    henv.strictTransactionList.trans h.strict⟩

theorem stable_configured (cfg : Config) (checkpoints : Checkpoints) :
    Stable U (fun s (_ : MainChain cx) => Configured cfg checkpoints s) where
  push _ h _ _ _ _ := { h with }
  takeOff _ _ h hoff := h.sameEnv hoff.env
  branches _ _ h := { h with }

variable (hU : UniqueIds cx U) (hI : Stable U I)
include hU hI

theorem Call.run_kept (hrewind : Rewindable U I)
    {call : Call} (hknown : ∀ raw, call.raw? = some raw → raw ∈ U)
    (h : Kept U I (s.atClock call.now) chain) : ∃ chain', Kept U I (call.run cx s) chain' := by
  cases call with
  | addBlock now raw =>
    obtain ⟨chain',hkept,_⟩ := addBlock_step hU hI h (hknown raw rfl)
    exact ⟨chain',hkept⟩
  | rewindTo now top =>
    obtain ⟨chain',hkept,_⟩ := rewindTo_step hrewind h top
    exact ⟨chain',hkept⟩

/-- A stable property that does not depend on the clock holds after every run. -/
theorem runCalls_kept (hrewind : Rewindable U I)
    (hclock : ∀ {s : ChainState} {chain : MainChain cx} (now : Nat), I s chain →
      I (s.atClock now) chain) {calls : List Call}
    (hknown : ∀ call ∈ calls, ∀ raw, call.raw? = some raw → raw ∈ U)
    (h : Kept U I s chain) : ∃ chain', Kept U I (runCalls cx calls s) chain' := by
  induction calls generalizing s chain with
  | nil => exact ⟨chain,h⟩
  | cons call calls ih =>
    obtain ⟨chain',hkept⟩ := Call.run_kept hU hI hrewind (hknown call List.mem_cons_self)
      (h.atClock call.now (hclock call.now h.inv))
    exact ih (fun c hc => hknown c (List.mem_cons_of_mem _ hc)) hkept

theorem runBlocks_kept
    (hclock : ∀ {s : ChainState} {chain : MainChain cx} (now : Nat), I s chain →
      I (s.atClock now) chain) {offers : List (Nat × RawBlock)}
    (hknown : ∀ offer ∈ offers, offer.2 ∈ U)
    (h : Kept U I s chain) : ∃ chain', Kept U I (runBlocks cx offers s) chain' := by
  induction offers generalizing s chain with
  | nil => exact ⟨chain,h⟩
  | cons offer offers ih =>
    obtain ⟨now,raw⟩ := offer
    obtain ⟨chain',hkept,_⟩ := addBlock_step hU hI (h.atClock now (hclock now h.inv))
      (hknown _ List.mem_cons_self)
    exact ih (fun o ho => hknown o (List.mem_cons_of_mem _ ho)) hkept

end

end Wrkz
