import Wrkz.Chain.Alternative
import Wrkz.Chain.Verdict

/-!
Sound states: the tables hold a chain whose blocks follow each other, and every
alternative block knows its place. A block's place is the height its coinbase
names, so it follows from the template; with unique ids it follows from the id.
-/

set_option autoImplicit false

namespace Wrkz

open Library

def templatesOf (U : Set RawBlock) : Set BlockTemplate :=
  { t | ∃ raw ∈ U, BlockTemplate.fromBytes raw.block = .ok t }

/-- No two templates of `U` share an id. -/
def UniqueIds (cx : Crypto) (U : Set RawBlock) : Prop :=
  ∀ t ∈ templatesOf U, ∀ u ∈ templatesOf U, ∀ h, t.hash cx = .ok h → u.hash cx = .ok h → t = u

/-- The blocks of the chain follow each other. -/
structure Linked {cx : Crypto} (U : Set RawBlock) (chain : MainChain cx) : Prop where
  known : ∀ b ∈ chain, b.raw ∈ U
  height : ∀ (i : Nat) (b : MainBlock cx), chain[i]? = some b → b.block.coinbaseHeight = some i
  parent : ∀ (i : Nat) (b c : MainBlock cx), chain[i]? = some b → chain[i+1]? = some c →
    c.block.previousBlockHash = b.info.blockHash

/-- An alternative block under its id `h`, with its parent one place below. -/
structure AltSound (cx : Crypto) (U : Set RawBlock) (h : Hash) (alt : AltBlock)
    (t p : BlockTemplate) : Prop where
  known : (⟨alt.blockBlob,alt.txBlobs⟩ : RawBlock) ∈ U
  parsed : BlockTemplate.fromBytes alt.blockBlob = .ok t
  hashed : t.hash cx = .ok h
  prevHash : alt.prevHash = t.previousBlockHash
  height : t.coinbaseHeight = some alt.index
  infoHash : alt.info.blockHash = h
  parentKnown : p ∈ templatesOf U
  parentHashed : p.hash cx = .ok alt.prevHash
  parentHeight : ∃ i, p.coinbaseHeight = some i ∧ alt.index = i + 1

def AltsSound (cx : Crypto) (U : Set RawBlock) (alts : AltBlocks) : Prop :=
  ∀ h alt, alts.lookup h = some alt → ∃ t p, AltSound cx U h alt t p

structure Sound {cx : Crypto} (U : Set RawBlock) (s : ChainState) (chain : MainChain cx) :
    Prop where
  holds : HoldsChain s chain
  nonempty : chain ≠ []
  linked : Linked U chain
  alts : AltsSound cx U s.altBlocks

section

variable {cx : Crypto} {U : Set RawBlock} {s : ChainState} {chain p q : MainChain cx}
  {b : MainBlock cx}

theorem Linked.of_append (h : Linked U (p ++ q)) : Linked U p where
  known b hb := h.known b (List.mem_append_left _ hb)
  height i b hb := by
    have hlt := (List.getElem?_eq_some_iff.1 hb).1
    exact h.height i b (by rwa [List.getElem?_append_left hlt])
  parent i b c hb hc := by
    have hlt := (List.getElem?_eq_some_iff.1 hb).1
    have hlt' := (List.getElem?_eq_some_iff.1 hc).1
    exact h.parent i b c (by rwa [List.getElem?_append_left hlt])
      (by rwa [List.getElem?_append_left hlt'])

theorem Linked.concat (h : Linked U chain) (hknown : b.raw ∈ U)
    (hheight : b.block.coinbaseHeight = some chain.length)
    (hparent : ∀ c, chain.getLast? = some c → b.block.previousBlockHash = c.info.blockHash) :
    Linked U (chain ++ [b]) where
  known c hc := by
    rcases List.mem_append.1 hc with hc | hc
    · exact h.known c hc
    · rw [List.mem_singleton.1 hc]
      exact hknown
  height i c hc := by
    rw [MainChain.getElem?_concat] at hc
    split at hc
    · rename_i hi
      cases hc
      rw [hheight, hi]
    · exact h.height i c hc
  parent i c d hc hd := by
    rw [MainChain.getElem?_concat] at hc hd
    split at hd
    · rename_i hi
      rw [if_neg (by omega)] at hc
      cases hd
      refine hparent c ?_
      rw [List.getLast?_eq_getElem?]
      rw [show chain.length - 1 = i by omega]
      exact hc
    · rename_i hi
      have hlt := (List.getElem?_eq_some_iff.1 hd).1
      rw [if_neg (by omega)] at hc
      exact h.parent i c d hc hd

theorem Linked.template_mem (h : Linked U chain) : ∀ b ∈ chain, b.block ∈ templatesOf U :=
  fun b hb => ⟨b.raw,h.known b hb,b.parsed⟩

variable {block : BlockTemplate} {x : Hash} {t : BlockTemplate} {raw : RawBlock} {hash : Hash}
  {prev : Nat}

section

variable (h : Linked U chain) (hU : UniqueIds cx U) (ht : t ∈ templatesOf U)
  (hx : t.hash cx = .ok x)
include h hU ht hx

theorem Linked.fresh (hheight : t.coinbaseHeight = some chain.length) :
    ∀ c ∈ chain, c.info.blockHash ≠ x := by
  intro c hc heq
  obtain ⟨i,hi⟩ := List.getElem?_of_mem hc
  have hlt := (List.getElem?_eq_some_iff.1 hi).1
  have hci := h.height i c hi
  have heq' := hU t ht c.block (h.template_mem c hc) x hx (heq ▸ c.hashed)
  rw [heq', hci] at hheight
  have := Option.some.inj hheight
  omega

theorem Linked.index_of_hash {i j : Nat} (hheight : t.coinbaseHeight = some i) {c : MainBlock cx}
    (hc : chain[j]? = some c) (heq : c.info.blockHash = x) : i = j := by
  have hj := h.height j c hc
  have heq' := hU t ht c.block (h.template_mem c (List.mem_of_getElem? hc)) x hx (heq ▸ c.hashed)
  rw [heq', hj] at hheight
  exact (Option.some.inj hheight).symm

end

theorem AltsSound.mono {alts alts' : AltBlocks} (h : AltsSound cx U alts)
    (hsub : ∀ x alt, alts'.lookup x = some alt → alts.lookup x = some alt) : AltsSound cx U alts' :=
  fun x alt hx => h x alt (hsub x alt hx)

theorem AltsSound.insert {alts : AltBlocks} (h : AltsSound cx U alts) {alt : AltBlock}
    (hnew : ∃ t p, AltSound cx U x alt t p) : AltsSound cx U (alts.insert x alt) := by
  intro y alt' hy
  by_cases hyx : y = x
  · subst hyx
    rw [AList.lookup_insert] at hy
    cases hy
    exact hnew
  · rw [AList.lookup_insert_ne hyx] at hy
    exact h y alt' hy

theorem Sound.congr {t : ChainState} (h : Sound U s chain) (hstore : t.store = s.store)
    (hcfg : t.cfg = s.cfg) (htip : t.tip = s.tip) (hrecent : t.recent = s.recent)
    (hmedian : t.blockMedianSize = s.blockMedianSize) (halts : AltsSound cx U t.altBlocks) :
    Sound U t chain :=
  ⟨h.holds.congr hstore hcfg htip hrecent hmedian,h.nonempty,h.linked,halts⟩

theorem Sound.takenOff {t : ChainState} (h : Sound U s (p ++ q)) (hp : p ≠ [])
    (hoff : TakenOff s t p q) (halts : t.altBlocks = s.altBlocks) : Sound U t p :=
  ⟨hoff.holds,hp,h.linked.of_append,halts ▸ h.alts⟩

theorem checkMain_mainBlock {a : Accepted} (hparsed : BlockTemplate.fromBytes raw.block = .ok block)
    (hhash : block.hash cx = .ok hash)
    (h : s.checkMain cx block raw.transactions hash prev = .ok a) :
    ∃ b : MainBlock cx, b.block = block ∧ b.raw = raw ∧ b.info.blockHash = hash ∧
      block.coinbaseHeight = some (prev+1) ∧ a = b.accepted a.difficulty := by
  obtain ⟨head,v,fee,parent,reward,info,hhead,_,_,_,hinfo,rfl⟩ := checkMain_ok_iff.1 h
  obtain ⟨txs,coinbase,_,_,htxs,hcoinbase,_,_,_,_,rfl⟩ := checkHead_ok_iff.1 hhead
  have hinfoHash : info.blockHash = hash := by rw [(nextInfo_ok_iff.1 hinfo).2]
  refine ⟨{
    block := block
    raw := raw
    transactions := txs
    coinbaseHash := cx.cnFastHash coinbase
    info := info
    images := v.spentKeyImages
    parsed := hparsed
    transactionsParsed := htxs
    hashed := by rw [hinfoHash, hhash]
    coinbaseHashed := by
      simp [Transaction.hash, hcoinbase, bind, Except.bind, pure, Except.pure] },
    rfl,rfl,hinfoHash,checkHead_coinbaseHeight hhead,rfl⟩

end

end Wrkz
