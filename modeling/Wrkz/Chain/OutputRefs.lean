import Wrkz.Chain.Push

/-!
The output pairs of a block. When the record of a block has been dropped, they
are rebuilt from its body, and come out the same: the search finds where the
block's outputs of an amount begin, and every output is found in its place.
-/

set_option autoImplicit false

namespace Wrkz

open Library MainChain ChainState

variable {cx : Crypto} {s : ChainState} {p tail : MainChain cx} {b : MainBlock cx}

theorem MainChain.outputs_split (p : MainChain cx) (b : MainBlock cx) (tail : MainChain cx) :
    outputs (p ++ b :: tail) =
      p.outputs ++ (b.outputsAt p.length ++ outputsFrom (p.length+1) tail) := by
  rw [outputs_append]
  rfl

theorem MainChain.outputLog_blockIndex {chain q : MainChain cx} (hq : chain = p ++ q)
    {amount n : Nat} {r : OutputRecord} (hr : (chain.outputLog amount)[n]? = some r) :
    p.length ≤ r.blockIndex ↔ p.outputCount amount ≤ n := by
  subst hq
  unfold outputLog at hr
  rw [outputs_append, recordsOf_append] at hr
  by_cases hn : n < p.outputCount amount
  · have hn' : n < (recordsOf amount p.outputs).length := hn
    rw [List.getElem?_append_left hn'] at hr
    have hmem := mem_recordsOf.1 (List.mem_of_getElem? hr)
    have hlt := (outputsFrom_blockIndex hmem).2
    simp only at hlt
    omega
  · have hn' : (recordsOf amount p.outputs).length ≤ n := Nat.le_of_not_lt hn
    rw [List.getElem?_append_right hn'] at hr
    have hmem := mem_recordsOf.1 (List.mem_of_getElem? hr)
    have hge := (outputsFrom_blockIndex hmem).1
    simp only at hge
    omega

namespace HoldsTables

theorem output_eq {chain : MainChain cx} (h : HoldsTables s chain) (amount n : Nat) :
    s.store (.output amount n) = (chain.outputLog amount)[n]? :=
  h.outputs.entry_eq amount n

theorem firstOutputSearch_eq {q : MainChain cx} (h : HoldsTables s (p ++ q)) {amount : Nat} :
    ∀ (fuel low high : Nat), low ≤ p.outputCount amount → p.outputCount amount ≤ high →
      high ≤ outputCount (p ++ q) amount → high - low ≤ fuel →
      s.firstOutputSearch amount p.length fuel low high = .ok (p.outputCount amount) := by
  intro fuel
  induction fuel with
  | zero =>
    intro low high hlow hhigh _ hfuel
    have heq : low = p.outputCount amount := by omega
    simp [firstOutputSearch, heq]
  | succ fuel ih =>
    intro low high hlow hhigh hcount hfuel
    unfold firstOutputSearch
    by_cases hlt : low < high
    · have hmid : low + (high - low) / 2 < outputCount (p ++ q) amount := by omega
      have hrec := List.getElem?_eq_getElem hmid
      have hiff := outputLog_blockIndex rfl hrec
      simp only [hlt, if_true, h.output_eq, hrec]
      split
      · rename_i hle
        have := hiff.1 hle
        exact ih _ _ hlow this (by omega) (by omega)
      · rename_i hle
        have : ¬ p.outputCount amount ≤ low + (high - low) / 2 := fun hc => hle (hiff.2 hc)
        exact ih _ _ (by omega) hhigh hcount (by omega)
    · have heq : low = p.outputCount amount := by omega
      rw [if_neg hlt, heq]

theorem firstOutputFromBlock_eq {q : MainChain cx} (h : HoldsTables s (p ++ q)) (amount : Nat) :
    s.firstOutputFromBlock amount p.length = .ok (p.outputCount amount) := by
  have hle : p.outputCount amount ≤ outputCount (p ++ q) amount := by
    simp [outputCount, outputLog, outputs_append]
  unfold firstOutputFromBlock
  rw [h.outputCountForAmount_eq]
  exact h.firstOutputSearch_eq _ _ _ (Nat.zero_le _) hle (Nat.le_refl _) (by omega)

theorem output_in_block (h : HoldsTables s (p ++ b :: tail)) {done os : List (Nat × OutputRecord)}
    {amount : Nat} {r : OutputRecord} (hsplit : b.outputsAt p.length = done ++ (amount,r) :: os) :
    s.store (.output amount (p.outputCount amount + (recordsOf amount done).length)) = some r := by
  rw [h.output_eq]
  unfold outputLog outputCount outputLog
  rw [outputs_split, hsplit]
  simp only [recordsOf_append, recordsOf_cons, if_true]
  rw [List.getElem?_append_right (by omega), Nat.add_sub_cancel_left, List.append_assoc,
    List.getElem?_append_right (by omega)]
  simp

theorem rebuildRefs_eq (h : HoldsTables s (p ++ b :: tail)) :
    ∀ (os done : List (Nat × OutputRecord)) (next : AList (fun _ : Nat => Nat)),
      b.outputsAt p.length = done ++ os →
      (∀ l, nextIndex p.outputCount next l = p.outputCount l + (recordsOf l done).length) →
      s.rebuildRefs p.length next os =
        .ok ((number (fun l => p.outputCount l + (recordsOf l done).length) os).map Prod.fst) := by
  intro os
  induction os with
  | nil => intros; rfl
  | cons o os ih =>
    obtain ⟨amount,r⟩ := o
    intro done next hsplit hnext
    have hplace := h.output_in_block hsplit
    have hindex : r.blockIndex = p.length :=
      outputsAt_blockIndex (b := b) (o := (amount,r)) (by rw [hsplit]; simp)
    have hg : s.nextOutputIndex p.length next amount =
        .ok (p.outputCount amount + (recordsOf amount done).length) := by
      rw [← hnext amount]
      unfold nextOutputIndex nextIndex
      cases hl : next.lookup amount with
      | some g => rfl
      | none => simp [h.firstOutputFromBlock_eq]
    -- one more record of `amount`
    have hcount (l : Nat) : Function.update
        (fun l => p.outputCount l + (recordsOf l done).length) amount
        (p.outputCount amount + (recordsOf amount done).length + 1) l =
          p.outputCount l + (recordsOf l (done ++ [(amount,r)])).length := by
      by_cases hl : l = amount
      · subst hl
        simp [recordsOf_cons]
        omega
      · simp [Function.update_of_ne hl, recordsOf_cons, Ne.symm hl]
    have hstep := ih (done ++ [(amount,r)])
      (next.insert amount (p.outputCount amount + (recordsOf amount done).length + 1))
      (by simp [hsplit]) (by
        intro l
        rw [nextIndex_insert, funext hnext]
        exact hcount l)
    unfold rebuildRefs
    simp only [hg, bind, Except.bind, hplace, hindex, refuseIf]
    rw [if_neg (by simp)]
    simp only [hstep]
    simp only [pure, Except.pure, number, List.map_cons]
    congr 4
    exact funext fun l => (hcount l).symm

end HoldsTables

theorem parseTransactions_ok {block : BlockTemplate} {blobs : List Bytes}
    {txs : List Transaction} (h : parseTransactions block blobs = .ok txs) :
    blobs.length = block.transactionHashes.length ∧ parseTransactionBlobs blobs = .ok txs := by
  unfold parseTransactions at h
  obtain ⟨_,hlen,hparse⟩ := bind_ok_iff.1 h
  exact ⟨by simpa using hlen,hparse⟩

theorem MainBlock.bodyOutputs_eq (b : MainBlock cx) (index : Nat) :
    bodyOutputs cx index b.raw = .ok (b.outputsAt index) := by
  obtain ⟨hlen,hparse⟩ := parseTransactions_ok b.transactionsParsed
  unfold bodyOutputs
  simp only [b.parsed, Except.mapError, bind, Except.bind, b.coinbaseHashed]
  rw [List.take_of_length_le (by omega), hparse]
  rfl

def ChainState.HasRefs (s : ChainState) (index : Nat) : Prop :=
  (s.store (.blockOutputs index)).isSome = true

def ChainState.HasBody (s : ChainState) (index : Nat) : Prop :=
  (s.store (.rawBlock index)).isSome = true

/-- The state can still tell the output pairs of the block at `index`. -/
def ChainState.KnowsRefs (s : ChainState) (index : Nat) : Prop :=
  (s.store (.blockOutputs index)).isSome = true ∨ (s.store (.rawBlock index)).isSome = true

namespace HoldsTables

theorem blockOutputRefs_of_knowsRefs (h : HoldsTables s (p ++ b :: tail))
    (hknows : s.KnowsRefs p.length) : s.blockOutputRefs cx p.length = .ok (some (p.refsOn b)) := by
  have hget : (p ++ b :: tail)[p.length]? = some b := by simp
  unfold blockOutputRefs
  cases hrefs : s.store (.blockOutputs p.length) with
  | some refs =>
    obtain ⟨c,hc,heq⟩ := h.blockOutputs _ _ hrefs
    rw [hget] at hc
    cases hc
    rw [heq, List.take_left]
  | none =>
    have htip : s.tip.any (p.length ≤ ·) = true := by
      have hlen : MainChain.tip (p ++ b :: tail) = some (p.length + tail.length) :=
        MainChain.tip_eq_some_iff.2 (by simp; omega)
      rw [h.tip, hlen]
      simp
    rcases hknows with hknows | hknows
    · rw [hrefs] at hknows
      cases hknows
    · obtain ⟨raw,hraw⟩ := Option.isSome_iff_exists.1 hknows
      obtain ⟨c,hc,heq⟩ := h.rawBlocks _ _ hraw
      rw [hget] at hc
      cases hc
      subst heq
      have hrebuild := h.rebuildRefs_eq (b.outputsAt p.length) [] ∅ rfl (by simp)
      simp only [htip, Bool.true_eq_false, if_false, hraw, b.bodyOutputs_eq, bind, Except.bind,
        hrebuild]
      simp [pure, Except.pure, refsOn]

end HoldsTables

theorem blockOutputRefs_of_not_knowsRefs {index : Nat} (hknows : ¬ s.KnowsRefs index) :
    s.blockOutputRefs cx index = .ok none := by
  unfold ChainState.KnowsRefs at hknows
  push Not at hknows
  obtain ⟨hrefs,hraw⟩ := hknows
  have hrefs' : s.store (.blockOutputs index) = none := by simpa using hrefs
  have hraw' : s.store (.rawBlock index) = none := by simpa using hraw
  simp [blockOutputRefs, hrefs', hraw']

end Wrkz
