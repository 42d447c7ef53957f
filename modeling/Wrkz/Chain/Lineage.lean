import Wrkz.Chain.Settled

/-!
The lineage of a held block: the infos from genesis up to it, along main chain
and branch. The record of a branch block follows from its lineage, and is the one
the block gets on the main chain; so blocks move between the main chain and the
branches with their records.
-/

set_option autoImplicit false

namespace Wrkz

open Library MainChain

structure Sees (cfg : Config) (checkpoints : Checkpoints) (t : ChainState) (view : ChainView)
    (infos : List BlockInfo) : Prop where
  configured : Configured cfg checkpoints t
  infos : ∀ i, i < infos.length → t.infoInView view i = infos[i]?

/-- Some node that saw the infos has passed the block on top of them as a branch
block, by the given time. -/
def PassedOn (cx : Crypto) (cfg : Config) (checkpoints : Checkpoints) (now : Nat)
    (infos : List BlockInfo) (raw : RawBlock) (hash : Hash) (info : BlockInfo) : Prop :=
  ∃ t view block d, Sees cfg checkpoints t view infos ∧ t.clock ≤ now ∧
    BlockTemplate.fromBytes raw.block = .ok block ∧
    t.checkAlternative cx view block raw.transactions hash (infos.length-1) = .ok (info,d)

def AltBlock.raw (alt : AltBlock) : RawBlock := ⟨alt.blockBlob,alt.txBlobs⟩

inductive Lineage {cx : Crypto} (alts : AltBlocks) (chain : MainChain cx) :
    Hash → List BlockInfo → Prop where
  | main {i : Nat} {b : MainBlock cx} (h : chain[i]? = some b) :
      Lineage alts chain b.info.blockHash (infos (chain.take (i+1)))
  | alt {x : Hash} {a : AltBlock} {infos : List BlockInfo} (h : alts.lookup x = some a)
      (hparent : Lineage alts chain a.prevHash infos) :
      Lineage alts chain x (infos ++ [a.info])

section

variable {cx : Crypto} {cfg : Config} {checkpoints : Checkpoints} {now now' : Nat}
  {s t : ChainState} {v w : ChainView} {infos : List BlockInfo} {raw : RawBlock} {hash : Hash}
  {info info' : BlockInfo} {alts alts' : AltBlocks} {chain p q : MainChain cx} {b : MainBlock cx}

theorem Sees.agree (hs : Sees cfg checkpoints s v infos) (ht : Sees cfg checkpoints t w infos)
    (hne : infos ≠ []) (hclock : s.clock ≤ t.clock) : Agree s t v w (infos.length-1) where
  simnet := by rw [hs.configured.cfg, ht.configured.cfg]
  checkpoints := by rw [hs.configured.checkpoints, ht.configured.checkpoints]
  powHint := by rw [hs.configured.powHint, ht.configured.powHint]
  strict := by rw [hs.configured.strict, ht.configured.strict]
  clock := hclock
  infos i hi := by
    have hpos := List.length_pos_iff.2 hne
    rw [hs.infos i (by omega), ht.infos i (by omega)]

namespace PassedOn

theorem mono (h : PassedOn cx cfg checkpoints now infos raw hash info) (hle : now ≤ now') :
    PassedOn cx cfg checkpoints now' infos raw hash info := by
  obtain ⟨t,view,block,d,hsees,hclock,hcheck⟩ := h
  exact ⟨t,view,block,d,hsees,by omega,hcheck⟩

variable (hne : infos ≠ []) (h : PassedOn cx cfg checkpoints now infos raw hash info)
include hne h

theorem check (hs : Sees cfg checkpoints s v infos) (hclock : now ≤ s.clock) :
    ∃ block d, BlockTemplate.fromBytes raw.block = .ok block ∧
      s.checkAlternative cx v block raw.transactions hash (infos.length-1) = .ok (info,d) := by
  obtain ⟨t,view,block,d,hsees,hle,hparsed,hcheck⟩ := h
  exact ⟨block,d,hparsed,(hsees.agree hs hne (by omega)).checkAlternative_ok hcheck⟩

theorem unique (h' : PassedOn cx cfg checkpoints now' infos raw hash info') : info' = info := by
  obtain ⟨t,view,block,d,hsees,hle,hparsed,hcheck⟩ := h
  obtain ⟨t',view',block',d',hsees',hle',hparsed',hcheck'⟩ := h'
  rw [hparsed] at hparsed'
  cases hparsed'
  -- the later of the two nodes gives both verdicts
  rcases Nat.le_total t.clock t'.clock with hclock | hclock
  · have hagain := (hsees.agree hsees' hne hclock).checkAlternative_ok hcheck
    rw [hcheck'] at hagain
    cases hagain
    rfl
  · have hagain := (hsees'.agree hsees hne hclock).checkAlternative_ok hcheck'
    rw [hcheck] at hagain
    cases hagain
    rfl

end PassedOn

/-- The fees of a branch block are added up without a look at the transactions;
for transactions that pass they come out the same. -/
theorem alternativeFees_eq {block : BlockTemplate} {access : ChainAccess} {ctx : TxContext}
    {txs : List Transaction} (hpassed : ∀ tx ∈ txs, TxPassed cx access ctx tx) :
    ∀ (i fee : Nat), alternativeFees block txs i fee = .ok (totalFees fee txs) := by
  induction txs with
  | nil =>
    intro i fee
    rfl
  | cons tx txs ih =>
    intro i fee
    have htx := hpassed tx List.mem_cons_self
    have hrest := ih (fun tx' htx' => hpassed tx' (List.mem_cons_of_mem _ htx'))
      (i+1) (saturate64 (fee + tx.fee))
    have hpays : ¬ tx.body.inputAmounts.sum < (tx.body.outputs.map Output.amount).sum :=
      Nat.not_lt.2 htx.pays
    unfold alternativeFees
    simp only [htx.inputs, htx.outputs, orRefuse, bind, Except.bind, refuseIf, if_neg hpays]
    exact hrest

/-- A block the main chain accepts passes as a branch block, with the same record. -/
theorem checkAlternative_of_checkMain {block : BlockTemplate} {txBlobs : List Bytes} {prev : Nat}
    {a : Accepted} (h : s.checkMain cx block txBlobs hash prev = .ok a) :
    s.checkAlternative cx (.mainChain prev) block txBlobs hash prev = .ok (a.info,a.difficulty) := by
  obtain ⟨head,v,fee,parent,reward,info,hhead,hwork,hloop,hreward,hinfo,rfl⟩ := checkMain_ok_iff.1 h
  obtain ⟨txs,_,_,_,hparsed,_,_,_,_,_,hheadEq⟩ := checkHead_ok_iff.1 hhead
  obtain ⟨_,hpassed,hfee⟩ := validateTransactionsLoop_spec hloop
  have hzip : (head.transactions.zip txBlobs).map Prod.fst = head.transactions := by
    rw [hheadEq]
    exact List.map_fst_zip (parseTransactions_length hparsed).1.le
  rw [hzip] at hpassed hfee
  refine checkAlternative_ok_iff.2 ⟨head,fee,parent,reward,info,hhead,?_,hreward,hwork,hinfo,rfl⟩
  rw [hfee]
  exact alternativeFees_eq hpassed.passed 0 0

theorem NodeAt.sees (h : NodeAt cfg checkpoints s p) :
    Sees cfg checkpoints s (.mainChain (p.length-1)) (MainChain.infos p) where
  configured := h.configured
  infos i hi := by
    simp only [infos, List.length_map] at hi
    rw [h.infoInView_eq (p.length-1) i (by omega), infos, List.getElem?_map]

theorem AcceptedOn.passedOn (h : AcceptedOn cfg checkpoints now p b) :
    PassedOn cx cfg checkpoints now (MainChain.infos p) b.raw b.info.blockHash b.info := by
  obtain ⟨s,d,hs,hclock,hcheck⟩ := h
  refine ⟨s,.mainChain (p.length-1),b.block,d,hs.sees,hclock,b.parsed,?_⟩
  have hlen : (infos p).length - 1 = p.length - 1 := by simp [infos]
  rw [hlen]
  exact checkAlternative_of_checkMain hcheck

theorem MainChain.infos_append (p q : MainChain cx) :
    MainChain.infos (p ++ q) = MainChain.infos p ++ MainChain.infos q := by
  simp [MainChain.infos]

theorem Lineage.of_split (b : MainBlock cx) (q : MainChain cx) :
    Lineage alts (p ++ b :: q) b.info.blockHash (MainChain.infos p ++ [b.info]) := by
  have hget : (p ++ b :: q)[p.length]? = some b := by simp
  have htake : (p ++ b :: q).take (p.length+1) = p ++ [b] := by
    simp [List.take_append]
  have hlineage : Lineage alts (p ++ b :: q) _ _ := .main hget
  rw [htake, MainChain.infos_append] at hlineage
  exact hlineage

theorem Lineage.ne_nil (hne : chain ≠ []) {x : Hash} (h : Lineage alts chain x infos) :
    infos ≠ [] := by
  cases h with
  | main h =>
    intro hnil
    simp [infos, hne] at hnil
  | alt => simp

theorem Lineage.of_follows {x : Hash} {branch : List Hash} :
    ∀ {y : Hash} {infos : List BlockInfo}, Lineage alts chain y infos → Follows alts y branch →
      branch.getLast? = some x →
      Lineage alts chain x
        (infos ++ branch.filterMap fun h => (alts.lookup h).map AltBlock.info) := by
  induction branch with
  | nil => simp
  | cons h rest ih =>
    intro y infos hy hfollows hlast
    obtain ⟨⟨a,ha,hprev⟩,hrest⟩ := hfollows
    have hlineage : Lineage alts chain h (infos ++ [a.info]) := .alt ha (by rw [hprev]; exact hy)
    cases rest with
    | nil =>
      simp only [List.getLast?_singleton, Option.some.injEq] at hlast
      subst hlast
      simpa [ha] using hlineage
    | cons h' rest =>
      have := ih hlineage hrest (by simpa using hlast)
      simpa [ha] using this

end

end Wrkz
