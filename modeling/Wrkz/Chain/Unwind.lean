import Wrkz.Chain.OutputRefs
import Wrkz.Library.Stateful

/-!
Taking blocks off the chain. The writes of an unwind are deletions of the keys
the block owns, and counters cut back to what is left; several blocks in one
batch, as in `rewind_to`, do the same for the whole tail.
-/

set_option autoImplicit false

namespace Wrkz

open Library ChainState MainChain KeyValue List

variable {cx : Crypto} {s : ChainState}

def deletion (k : Key) : WriteOp := ⟨k,none⟩

/-- A key of the kinds that an unwind deletes. -/
def Key.OfBlock : Key → Prop
  | .keyImage _ | .blockKeyImages _ | .paymentIdEntry _ _ | .blockPaymentIds _ | .output _ _
  | .blockOutputs _ | .blockInfo _ | .hashToIndex _ | .transactionIndex _ | .blockTxHashes _
  | .rawBlock _ => True
  | _ => False

/-- A key that the end of a rewind leaves as it is. -/
def Key.NotFinished : Key → Prop
  | .outputCount _ | .paymentIdCount _ | .metaTip => False
  | _ => True

variable {r : List WriteOp × UnwindScratch} {scratch : UnwindScratch} {index : Nat} {α β : Type}
  {x : Except ChainError α} {f : α → ChainM β}

theorem run_liftExcept_of_ok {a : α} (h : x = .ok a) : (liftExcept x >>= f) s = f a s := by
  rw [h, run_bind_of_ok (liftExcept_ok a s)]

theorem run_liftExcept_of_error {e : ChainError} (h : x = .error e) :
    (liftExcept x >>= f) s = .error e s := by
  rw [h, run_bind_of_error (liftExcept_error e s)]

namespace MainChain

/-- The keys that go when `b` is taken off `p`. -/
def unwoundKeys (p : MainChain cx) (b : MainBlock cx) : List Key :=
  (if b.images = [] then []
    else (sortHashes b.images).map Key.keyImage ++ [Key.blockKeyImages p.length]) ++
  (if b.paymentRefs = [] then []
    else ((number (fun id => (recordsOf id p.payments).length) b.paymentRefs).map
      fun e => Key.paymentIdEntry e.1.1 e.1.2).reverse ++ [Key.blockPaymentIds p.length]) ++
  ((p.refsOn b).map (fun r => Key.output r.1 r.2) ++
    [Key.blockOutputs p.length, Key.blockInfo p.length, Key.hashToIndex b.info.blockHash] ++
    b.txHashes.map Key.transactionIndex ++
    [Key.blockTxHashes p.length, Key.rawBlock p.length])

def rewoundKeys (p : MainChain cx) : MainChain cx → List Key
  | [] => []
  | b :: q => rewoundKeys (p ++ [b]) q ++ p.unwoundKeys b

end MainChain

/-- The counters of an unwind stand where `q` comes off `p`. -/
structure ScratchCut (scratch : UnwindScratch) (p q : MainChain cx) : Prop where
  outputs : CutAt scratch.lowestOutput p.outputs (outputsFrom p.length q)
  payments : CutAt scratch.entryCounts p.payments q.payments
  legacy : scratch.legacy = ∅

theorem ScratchCut.empty (p : MainChain cx) : ScratchCut {} p [] :=
  ⟨CutAt.empty _,CutAt.empty _,rfl⟩

namespace HoldsTables

variable {p q tail : MainChain cx} {b : MainBlock cx}

variable {scratch : UnwindScratch} {chain : MainChain cx}

theorem paymentIdEntry_eq (h : HoldsTables s chain) (id : Hash) (n : Nat) :
    s.store (.paymentIdEntry id n) = (recordsOf id chain.payments)[n]? :=
  h.payments.entry_eq id n

theorem unwindPayments_eq (h : HoldsTables s chain) (index : Nat) (pre refs : List (Hash × Hash)) :
    ∀ (after : List (Hash × Hash)) (scratch : UnwindScratch),
      chain.payments = pre ++ refs ++ after → CutAt scratch.entryCounts (pre ++ refs) after →
      ∃ counts, s.unwindPayments index refs.reverse scratch =
          .ok (((number (fun id => (recordsOf id pre).length) refs).map
            fun e => deletion (.paymentIdEntry e.1.1 e.1.2)).reverse,
            { scratch with entryCounts := counts }) ∧
        CutAt counts pre (refs ++ after) := by
  induction refs using reverseRecOn with
  | nil =>
    intro after scratch _ hcut
    exact ⟨scratch.entryCounts,rfl,by simpa using hcut⟩
  | append_singleton refs o ih =>
    obtain ⟨id,txHash⟩ := o
    intro after scratch hpay hcut
    have hstored : ∀ l, s.paymentIdEntryCount l =
        (recordsOf l (pre ++ (refs ++ [(id,txHash)]) ++ after)).length := by
      intro l
      rw [h.paymentIdEntryCount_eq, paymentLog, hpay]
    have hcount := hcut.nextIndex_eq hstored id
    have hcount' : nextIndex s.paymentIdEntryCount scratch.entryCounts id =
        (recordsOf id (pre ++ refs)).length + 1 := by
      rw [hcount, ← append_assoc, recordsOf_append id (pre ++ refs), length_append]
      simp [recordsOf_cons]
    have hlast : nextIndex s.paymentIdEntryCount scratch.entryCounts id - 1 =
        (recordsOf id (pre ++ refs)).length := by omega
    have hentry : s.store (.paymentIdEntry id
        (nextIndex s.paymentIdEntryCount scratch.entryCounts id - 1)) = some txHash := by
      rw [h.paymentIdEntry_eq, hlast, hpay, ← append_assoc, append_assoc (pre ++ refs),
        recordsOf_append id (pre ++ refs), getElem?_append_right (Nat.le_refl _)]
      simp [recordsOf_cons]
    have hcut₁ : CutAt scratch.entryCounts (pre ++ refs ++ [(id,txHash)]) after := by
      rw [append_assoc]
      exact hcut
    have hcut' := hcut₁.step
    obtain ⟨counts,hrest,hcounts⟩ := ih ((id,txHash) :: after)
      { scratch with entryCounts :=
          scratch.entryCounts.insert id (recordsOf id (pre ++ refs)).length }
      (by rw [hpay]; simp) hcut'
    refine ⟨counts,?_,by simpa using hcounts⟩
    simp only [reverse_append, reverse_cons, reverse_nil, nil_append, cons_append]
    unfold unwindPayments
    simp only [hentry, orRefuse, bind, Except.bind, refuseIf, ne_eq, not_true_eq_false, if_false]
    rw [if_pos (by omega), hlast, hrest]
    simp [number_append, number, pure, Except.pure, deletion]

variable (h : HoldsTables s (p ++ b :: tail))
include h

theorem unwindPaymentIds_eq
    (hcut : CutAt scratch.entryCounts (p.payments ++ b.paymentRefs) tail.payments) :
    ∃ counts, s.unwindPaymentIds p.length scratch =
        .ok ((if b.paymentRefs = [] then []
          else ((number (fun id => (recordsOf id p.payments).length) b.paymentRefs).map
            fun e => Key.paymentIdEntry e.1.1 e.1.2).reverse ++
              [Key.blockPaymentIds p.length]).map deletion,
          { scratch with entryCounts := counts }) ∧
      CutAt counts p.payments (b.paymentRefs ++ tail.payments) := by
  have hget : (p ++ b :: tail)[p.length]? = some b := by simp
  have hrefs := h.blockPaymentIds p.length
  rw [hget, Option.bind_some] at hrefs
  unfold unwindPaymentIds
  by_cases hnil : b.paymentRefs = []
  · rw [if_pos hnil] at hrefs
    rw [hrefs]
    refine ⟨scratch.entryCounts,by simp [hnil],?_⟩
    simpa [hnil] using hcut
  · rw [if_neg hnil] at hrefs
    obtain ⟨counts,heq,hcounts⟩ := h.unwindPayments_eq p.length p.payments b.paymentRefs
      tail.payments scratch (by simp [MainChain.payments]) hcut
    refine ⟨counts,?_,hcounts⟩
    rw [hrefs]
    simp only [heq, bind, Except.bind, pure, Except.pure, hnil, if_false]
    simp [deletion, Function.comp_def]

theorem unwindKeyImageOps_eq :
    s.unwindKeyImageOps p.length =
      (if b.images = [] then []
        else (sortHashes b.images).map Key.keyImage ++ [Key.blockKeyImages p.length]).map
          deletion := by
  have hget : (p ++ b :: tail)[p.length]? = some b := by simp
  have himages := h.blockKeyImages p.length
  rw [hget, Option.bind_some] at himages
  unfold unwindKeyImageOps
  by_cases hnil : b.images = []
  · rw [if_pos hnil] at himages
    simp [himages, hnil]
  · rw [if_neg hnil] at himages
    simp [himages, hnil, deletion, Function.comp_def]

theorem unwindBlockOps_eq (refs : List (Nat × Nat)) :
    s.unwindBlockOps p.length b.info refs =
      (refs.map (fun r => Key.output r.1 r.2) ++
        [Key.blockOutputs p.length, Key.blockInfo p.length, Key.hashToIndex b.info.blockHash] ++
        b.txHashes.map Key.transactionIndex ++
        [Key.blockTxHashes p.length, Key.rawBlock p.length]).map deletion := by
  have hget : (p ++ b :: tail)[p.length]? = some b := by simp
  have hhashes : s.blockTransactionHashes p.length = b.txHashes := by
    unfold blockTransactionHashes
    rw [h.txHashes, hget]
    rfl
  unfold unwindBlockOps
  rw [hhashes]
  simp [deletion, Function.comp_def]

variable (hcut : ScratchCut scratch (p ++ [b]) tail)
include hcut

/-- What an unwind reads before it asks for the block's outputs. -/
theorem unwindOps_run :
    ∃ counts, CutAt counts p.payments (b.paymentRefs ++ tail.payments) ∧
      ∀ refs, s.blockOutputRefs cx p.length = .ok refs → s.unwindOps cx p.length scratch = (do
        let refs ← orRefuse refs (ChainError.rule (.reorganisationUnavailable p.length))
        pure (s.unwindKeyImageOps p.length ++ (if b.paymentRefs = [] then []
          else ((number (fun id => (recordsOf id p.payments).length) b.paymentRefs).map
            fun e => Key.paymentIdEntry e.1.1 e.1.2).reverse ++
              [Key.blockPaymentIds p.length]).map deletion ++ s.unwindBlockOps p.length b.info refs,
          refs.foldl UnwindScratch.noteOutput { scratch with entryCounts := counts })) := by
  have hinfo : s.blockInfo p.length = some b.info := by
    rw [h.blockInfo_eq]
    simp
  have hpay : CutAt scratch.entryCounts (p.payments ++ b.paymentRefs) tail.payments := by
    have hp := hcut.payments
    rwa [payments_concat] at hp
  obtain ⟨counts,heq,hcounts⟩ := h.unwindPaymentIds_eq hpay
  refine ⟨counts,hcounts,fun refs hrefs => ?_⟩
  simp only [unwindOps, hinfo, orRefuse, heq, hrefs, bind, Except.bind]

/-- One block's unwind, with the counters cut where the blocks above came off. -/
theorem unwindOps_eq (hknows : s.KnowsRefs p.length) :
    ∃ scratch', s.unwindOps cx p.length scratch =
        .ok ((p.unwoundKeys b).map deletion, scratch') ∧
      ScratchCut scratch' p (b :: tail) := by
  have hout : CutAt scratch.lowestOutput (p.outputs ++ b.outputsAt p.length)
      (outputsFrom (p.length+1) tail) := by
    have ho := hcut.outputs
    rwa [outputs_concat, length_append, length_singleton] at ho
  obtain ⟨counts,hcounts,hrun⟩ := h.unwindOps_run hcut
  refine ⟨(p.refsOn b).foldl UnwindScratch.noteOutput { scratch with entryCounts := counts },?_,?_⟩
  · rw [hrun _ (h.blockOutputRefs_of_knowsRefs hknows), h.unwindKeyImageOps_eq]
    simp [orRefuse, h.unwindBlockOps_eq, unwoundKeys, bind, Except.bind, pure, Except.pure]
  · have hfold : ∀ (refs : List (Nat × Nat)) (sc : UnwindScratch),
        refs.foldl UnwindScratch.noteOutput sc =
          { sc with lowestOutput := refs.foldl lower sc.lowestOutput } := by
      intro refs
      induction refs with
      | nil => intro sc; rfl
      | cons r refs ih => intro sc; exact ih _
    rw [hfold]
    exact ⟨hout.lower_batch,hcounts,hcut.legacy⟩

theorem unwindOps_unavailable (hknows : ¬ s.KnowsRefs p.length) :
    s.unwindOps cx p.length scratch = .error (.rule (.reorganisationUnavailable p.length)) := by
  obtain ⟨_,_,hrun⟩ := h.unwindOps_run hcut
  rw [hrun _ (blockOutputRefs_of_not_knowsRefs hknows)]
  rfl

end HoldsTables

theorem rewindOps_append (s : ChainState) (xs ys : List Nat) (scratch : UnwindScratch) :
    s.rewindOps cx (xs ++ ys) scratch = (do
      let (ops,scratch) ← s.rewindOps cx xs scratch
      let (restOps,scratch) ← s.rewindOps cx ys scratch
      pure (ops ++ restOps, scratch)) := by
  induction xs generalizing scratch with
  | nil =>
    cases hy : s.rewindOps cx ys scratch with
    | error e => simp [rewindOps, hy, bind, Except.bind]
    | ok r => simp [rewindOps, hy, bind, Except.bind, pure, Except.pure]
  | cons x xs ih =>
    simp only [cons_append, rewindOps]
    cases hx : s.unwindOps cx x scratch with
    | error e => rfl
    | ok r =>
      simp only [bind, Except.bind, ih]
      cases hxs : s.rewindOps cx xs r.2 with
      | error e => simp
      | ok r' =>
        cases hy : s.rewindOps cx ys r'.2 with
        | error e => simp [pure, Except.pure, hy]
        | ok r'' => simp [pure, Except.pure, hy]

theorem tail_indexes_cons (start n : Nat) :
    (range' start (n+1)).reverse = (range' (start+1) n).reverse ++ [start] := by
  simp [range'_succ]

namespace HoldsTables

variable {p q tail : MainChain cx} {b : MainBlock cx}

theorem rewindOps_eq : ∀ (q p : MainChain cx), HoldsTables s (p ++ q) →
    (∀ i, p.length ≤ i → i < p.length + q.length → s.KnowsRefs i) →
    ∃ scratch, s.rewindOps cx (range' p.length q.length).reverse {} =
        .ok ((p.rewoundKeys q).map deletion, scratch) ∧ ScratchCut scratch p q := by
  intro q
  induction q with
  | nil =>
    intro p _ _
    exact ⟨{},rfl,ScratchCut.empty p⟩
  | cons b q ih =>
    intro p h hknows
    have happ : p ++ b :: q = (p ++ [b]) ++ q := by simp
    have hlen : (p ++ [b]).length = p.length + 1 := by simp
    obtain ⟨scratch,heq,hcut⟩ := ih (p ++ [b]) (happ ▸ h) (by
      intro i hi hi'
      refine hknows i (by omega) ?_
      simp only [length_cons]
      omega)
    obtain ⟨scratch',heq',hcut'⟩ := h.unwindOps_eq hcut
      (hknows p.length (Nat.le_refl _) (by simp))
    refine ⟨scratch',?_,hcut'⟩
    rw [hlen] at heq
    rw [length_cons, tail_indexes_cons, rewindOps_append, heq]
    simp [rewindOps, heq', bind, Except.bind, pure, Except.pure, rewoundKeys]

end HoldsTables

theorem unwindOps_ok_knowsRefs (h : s.unwindOps cx index scratch = .ok r) : s.KnowsRefs index := by
  unfold unwindOps at h
  obtain ⟨info,_,h⟩ := bind_ok_iff.1 h
  obtain ⟨pay,_,h⟩ := bind_ok_iff.1 h
  obtain ⟨refs,hrefs,h⟩ := bind_ok_iff.1 h
  obtain ⟨refs',hrefs',_⟩ := bind_ok_iff.1 h
  by_contra hnot
  rw [blockOutputRefs_of_not_knowsRefs hnot] at hrefs
  cases hrefs
  simp at hrefs'

theorem rewindOps_ok_knowsRefs {idxs : List Nat} (h : s.rewindOps cx idxs scratch = .ok r) :
    ∀ i ∈ idxs, s.KnowsRefs i := by
  induction idxs generalizing scratch r with
  | nil => simp
  | cons x xs ih =>
    unfold rewindOps at h
    obtain ⟨r₁,h₁,h⟩ := bind_ok_iff.1 h
    obtain ⟨r₂,h₂,_⟩ := bind_ok_iff.1 h
    intro i hi
    rcases mem_cons.1 hi with rfl | hi
    · exact unwindOps_ok_knowsRefs h₁
    · exact ih h₂ i hi

theorem unwindPayments_deletes {refs : List (Hash × Hash)}
    (h : s.unwindPayments index refs scratch = .ok r) : ∀ op ∈ r.1, op.1.OfBlock ∧ op.2 = none := by
  induction refs generalizing scratch r with
  | nil =>
    cases h
    simp
  | cons ref refs ih =>
    unfold unwindPayments at h
    dsimp only at h
    split at h
    · simp only [bind_ok_iff] at h
      obtain ⟨entry,_,_,_,rest,hrest,heq⟩ := h
      cases heq
      intro op hop
      rcases mem_cons.1 hop with rfl | hop
      · exact ⟨trivial,rfl⟩
      · exact ih hrest op hop
    · simp only [bind_ok_iff] at h
      obtain ⟨_,_,hrest⟩ := h
      exact ih hrest

theorem unwindOps_deletes (h : s.unwindOps cx index scratch = .ok r) :
    ∀ op ∈ r.1, op.1.OfBlock ∧ op.2 = none := by
  unfold unwindOps at h
  simp only [bind_ok_iff] at h
  obtain ⟨info,_,payments,hpayments,refs,_,refs',_,heq⟩ := h
  cases heq
  intro op hop
  simp only [mem_append] at hop
  rcases hop with (hop | hop) | hop
  · unfold unwindKeyImageOps at hop
    split at hop
    · simp at hop
    · simp only [mem_append, mem_map, mem_singleton] at hop
      rcases hop with ⟨e,_,rfl⟩ | rfl <;> exact ⟨trivial,rfl⟩
  · unfold unwindPaymentIds at hpayments
    split at hpayments
    · cases hpayments
      simp at hop
    · simp only [bind_ok_iff] at hpayments
      obtain ⟨inner,hinner,heq⟩ := hpayments
      cases heq
      rcases mem_append.1 hop with hop | hop
      · exact unwindPayments_deletes hinner op hop
      · rw [mem_singleton.1 hop]
        exact ⟨trivial,rfl⟩
  · simp only [unwindBlockOps, mem_append, mem_map, mem_cons, not_mem_nil, or_false] at hop
    rcases hop with ((⟨e,_,rfl⟩ | rfl | rfl | rfl) | ⟨e,_,rfl⟩) | rfl | rfl <;>
      exact ⟨trivial,rfl⟩

namespace MainChain

variable {p q : MainChain cx} {b : MainBlock cx}

variable {i : Nat} {P : MainBlock cx → Prop} {h : Hash} {k : Key}

theorem ofBlock_of_mem_rewoundKeys (h : k ∈ p.rewoundKeys q) : k.OfBlock := by
  induction q generalizing p with
  | nil => cases h
  | cons b q ih =>
    rcases mem_append.1 h with h | h
    · exact ih h
    · unfold unwoundKeys at h
      simp only [mem_append, mem_ite_nil_left, mem_reverse, mem_map,
        mem_cons, not_mem_nil, or_false] at h
      rcases h with (⟨_,⟨_,_,rfl⟩ | rfl⟩ | ⟨_,⟨_,_,rfl⟩ | rfl⟩) |
        ((⟨_,_,rfl⟩ | rfl | rfl | rfl) | ⟨_,_,rfl⟩) | rfl | rfl <;> trivial

theorem mem_rewoundKeys_at (key : Nat → Key)
    (hb : ∀ (p : MainChain cx) (b : MainBlock cx), key i ∈ p.unwoundKeys b ↔ i = p.length ∧ P b) :
    key i ∈ p.rewoundKeys q ↔ p.length ≤ i ∧ ∃ b, (p ++ q)[i]? = some b ∧ P b := by
  induction q generalizing p with
  | nil =>
    simp only [rewoundKeys, List.not_mem_nil, List.append_nil, false_iff]
    rintro ⟨hle,b,hget,_⟩
    have := (List.getElem?_eq_some_iff.1 hget).1
    omega
  | cons b q ih =>
    rw [rewoundKeys, mem_append, ih, hb, append_assoc, singleton_append,
      length_append, length_singleton]
    constructor
    · rintro (⟨hle,h⟩ | ⟨rfl,hp⟩)
      · exact ⟨by omega,h⟩
      · exact ⟨Nat.le_refl _,b,by simp,hp⟩
    · rintro ⟨hle,c,hget,hp⟩
      rcases Nat.lt_or_eq_of_le hle with hlt | rfl
      · exact .inl ⟨hlt,c,hget,hp⟩
      · simp only [getElem?_append_right (Nat.le_refl _), Nat.sub_self,
          getElem?_cons_zero, Option.some.injEq] at hget
        subst hget
        exact .inr ⟨rfl,hp⟩

theorem mem_rewoundKeys_of
    (hb : ∀ (p : MainChain cx) (b : MainBlock cx), k ∈ p.unwoundKeys b ↔ P b) :
    k ∈ p.rewoundKeys q ↔ ∃ b ∈ q, P b := by
  induction q generalizing p with
  | nil => simp [rewoundKeys]
  | cons b q ih =>
    rw [rewoundKeys, mem_append, ih, hb]
    simp only [mem_cons, exists_eq_or_imp]
    exact or_comm

theorem mem_rewoundKeys_blockInfo : Key.blockInfo i ∈ p.rewoundKeys q ↔
    p.length ≤ i ∧ ∃ b, (p ++ q)[i]? = some b ∧ True := by
  refine mem_rewoundKeys_at Key.blockInfo ?_
  intro p b
  unfold unwoundKeys
  split_ifs <;> simp

theorem mem_rewoundKeys_blockTxHashes : Key.blockTxHashes i ∈ p.rewoundKeys q ↔
    p.length ≤ i ∧ ∃ b, (p ++ q)[i]? = some b ∧ True := by
  refine mem_rewoundKeys_at Key.blockTxHashes ?_
  intro p b
  unfold unwoundKeys
  split_ifs <;> simp

theorem mem_rewoundKeys_blockOutputs : Key.blockOutputs i ∈ p.rewoundKeys q ↔
    p.length ≤ i ∧ ∃ b, (p ++ q)[i]? = some b ∧ True := by
  refine mem_rewoundKeys_at Key.blockOutputs ?_
  intro p b
  unfold unwoundKeys
  split_ifs <;> simp

theorem mem_rewoundKeys_rawBlock : Key.rawBlock i ∈ p.rewoundKeys q ↔
    p.length ≤ i ∧ ∃ b, (p ++ q)[i]? = some b ∧ True := by
  refine mem_rewoundKeys_at Key.rawBlock ?_
  intro p b
  unfold unwoundKeys
  split_ifs <;> simp

theorem mem_rewoundKeys_blockKeyImages : Key.blockKeyImages i ∈ p.rewoundKeys q ↔
    p.length ≤ i ∧ ∃ b, (p ++ q)[i]? = some b ∧ b.images ≠ [] := by
  refine mem_rewoundKeys_at Key.blockKeyImages ?_
  intro p b
  unfold unwoundKeys
  split_ifs with h <;> simp [h]

theorem mem_rewoundKeys_blockPaymentIds : Key.blockPaymentIds i ∈ p.rewoundKeys q ↔
    p.length ≤ i ∧ ∃ b, (p ++ q)[i]? = some b ∧ b.paymentRefs ≠ [] := by
  refine mem_rewoundKeys_at Key.blockPaymentIds ?_
  intro p b
  unfold unwoundKeys
  split_ifs with _ h <;> simp [*]

theorem mem_rewoundKeys_hashToIndex :
    Key.hashToIndex h ∈ p.rewoundKeys q ↔ ∃ b ∈ q, h = b.info.blockHash := by
  refine mem_rewoundKeys_of ?_
  intro p b
  unfold unwoundKeys
  split_ifs <;> simp

theorem mem_rewoundKeys_keyImage {k : Hash} :
    Key.keyImage k ∈ p.rewoundKeys q ↔ ∃ b ∈ q, k ∈ b.images := by
  refine mem_rewoundKeys_of ?_
  intro p b
  unfold unwoundKeys
  split_ifs with h <;> simp [h]

theorem mem_rewoundKeys_transactionIndex :
    Key.transactionIndex h ∈ p.rewoundKeys q ↔ ∃ b ∈ q, h ∈ b.txHashes := by
  refine mem_rewoundKeys_of ?_
  intro p b
  unfold unwoundKeys
  split_ifs <;> simp

theorem mem_rewoundKeys_output {amount n : Nat} :
    Key.output amount n ∈ p.rewoundKeys q ↔
      (amount,n) ∈ (number p.outputCount (outputsFrom p.length q)).map Prod.fst := by
  induction q generalizing p with
  | nil => simp [rewoundKeys, outputsFrom]
  | cons b q ih =>
    have hb : Key.output amount n ∈ p.unwoundKeys b ↔ (amount,n) ∈ p.refsOn b := by
      unfold unwoundKeys
      split_ifs <;> simp
    have hbase : (fun l => p.outputCount l + (recordsOf l (b.outputsAt p.length)).length) =
        outputCount (p ++ [b]) := by
      funext l
      simp [outputCount, outputLog, outputs_concat]
    rw [rewoundKeys, mem_append, ih, hb, outputsFrom, number_append, map_append,
      mem_append, hbase, length_append, length_singleton]
    exact or_comm

theorem mem_rewoundKeys_paymentIdEntry {id : Hash} {n : Nat} :
    Key.paymentIdEntry id n ∈ p.rewoundKeys q ↔
      (id,n) ∈ (number (fun l => (recordsOf l p.payments).length) q.payments).map Prod.fst := by
  induction q generalizing p with
  | nil => simp [rewoundKeys, payments]
  | cons b q ih =>
    have hb : Key.paymentIdEntry id n ∈ p.unwoundKeys b ↔
        (id,n) ∈ (number (fun l => (recordsOf l p.payments).length) b.paymentRefs).map Prod.fst := by
      unfold unwoundKeys
      split_ifs with _ h <;> simp [*]
    have hbase : (fun l => (recordsOf l p.payments).length + (recordsOf l b.paymentRefs).length) =
        fun l => (recordsOf l (payments (p ++ [b]))).length := by
      funext l
      simp [payments_concat]
    have hcons : payments (b :: q) = b.paymentRefs ++ payments q := by simp [payments]
    rw [rewoundKeys, mem_append, ih, hb, hcons, number_append, map_append, mem_append, hbase]
    exact or_comm

end MainChain

section Finish

variable {t : Store} {k : Key} {scratch : UnwindScratch}

variable (hlegacy : scratch.legacy = ∅)
include hlegacy

theorem mem_finish {op : WriteOp} (h : op ∈ scratch.finish) :
    (∃ e ∈ scratch.lowestOutput.entries,
      op = ⟨.outputCount e.1, if e.2 = 0 then none else some e.2⟩) ∨
    (∃ e ∈ scratch.entryCounts.entries,
      op = ⟨.paymentIdCount e.1, if 0 < e.2 then some e.2 else none⟩) := by
  unfold UnwindScratch.finish at h
  rw [hlegacy] at h
  simp only [mem_append, mem_map] at h
  rcases h with (⟨e,he,rfl⟩ | ⟨e,he,rfl⟩) | ⟨e,he,rfl⟩
  · exact .inl ⟨e,he,rfl⟩
  · exact .inr ⟨e,he,rfl⟩
  · simp at he

theorem finish_skip (hk : k.NotFinished) : t.writeBatch scratch.finish k = t k := by
  refine writeBatch_of_untouched ?_
  rintro op hop rfl
  rcases mem_finish hlegacy hop with ⟨e,_,rfl⟩ | ⟨e,_,rfl⟩ <;> exact hk

theorem finish_outputCount (amount : Nat) :
    t.writeBatch scratch.finish (.outputCount amount) =
      ((scratch.lowestOutput.lookup amount).map fun n => if n = 0 then none else some n).getD
        (t (.outputCount amount)) := by
  refine writeBatch_of_writes fun r => ⟨fun hop => ?_,fun ho => ?_⟩
  · rcases mem_finish hlegacy hop with ⟨⟨_,n⟩,he,heq⟩ | ⟨_,_,heq⟩ <;> cases heq
    rw [AList.mem_lookup_iff.2 he]
    rfl
  · obtain ⟨n,hn,rfl⟩ := Option.map_eq_some_iff.1 ho
    refine mem_append_left _ (mem_append_left _ ?_)
    exact mem_map.2 ⟨⟨amount,n⟩,AList.mem_lookup_iff.1 hn,rfl⟩

theorem finish_paymentIdCount (id : Hash) :
    t.writeBatch scratch.finish (.paymentIdCount id) =
      ((scratch.entryCounts.lookup id).map fun n => if 0 < n then some n else none).getD
        (t (.paymentIdCount id)) := by
  refine writeBatch_of_writes fun r => ⟨fun hop => ?_,fun ho => ?_⟩
  · rcases mem_finish hlegacy hop with ⟨_,_,heq⟩ | ⟨⟨_,n⟩,he,heq⟩ <;> cases heq
    rw [AList.mem_lookup_iff.2 he]
    rfl
  · obtain ⟨n,hn,rfl⟩ := Option.map_eq_some_iff.1 ho
    refine mem_append_left _ (mem_append_right _ ?_)
    exact mem_map.2 ⟨⟨id,n⟩,AList.mem_lookup_iff.1 hn,rfl⟩

end Finish

/-- The store after the tail `q` has been taken off `p`, with pair records put back. -/
def ChainState.rewound (s : ChainState) (p q : MainChain cx) (scratch : UnwindScratch)
    (restored : List WriteOp) : Store :=
  s.store.writeBatch ((p.rewoundKeys q).map deletion ++ scratch.finish ++ restored ++
    [(⟨.metaTip,p.tip⟩ : WriteOp)])

/-- Pair records of blocks of `p`. -/
def RestoresRefs (p : MainChain cx) (restored : List WriteOp) : Prop :=
  ∀ op ∈ restored, ∃ i b, p[i]? = some b ∧
    op = ⟨.blockOutputs i, some (refsOn (p.take i) b)⟩

theorem RestoresRefs.nil (p : MainChain cx) : RestoresRefs p [] := by
  simp [RestoresRefs]

section Rewound

variable {p q : MainChain cx} {scratch : UnwindScratch} {restored : List WriteOp}

theorem deletions_read (t : Store) (keys : List Key) (k : Key) :
    t.writeBatch (keys.map deletion) k = if k ∈ keys then none else t k := by
  rw [writeBatch_of_deletions]
  · simp [deletion]
  · intro op hop _
    obtain ⟨k',_,rfl⟩ := mem_map.1 hop
    rfl

theorem RestoresRefs.skip (hr : RestoresRefs p restored) {t : Store} {k : Key}
    (h : ∀ i, k ≠ .blockOutputs i) : t.writeBatch restored k = t k := by
  refine writeBatch_of_untouched ?_
  intro op hop
  obtain ⟨i,b,_,rfl⟩ := hr op hop
  exact (h i).symm

theorem rewound_finish (hr : RestoresRefs p restored) {k : Key} (h : ∀ i, k ≠ .blockOutputs i)
    (htip : k ≠ .metaTip) : s.rewound p q scratch restored k =
      (s.store.writeBatch ((p.rewoundKeys q).map deletion)).writeBatch scratch.finish k := by
  unfold rewound
  rw [writeBatch_append, writeBatch_of_untouched (by simpa using htip.symm), writeBatch_append,
    hr.skip h, writeBatch_append]

theorem rewound_read (hlegacy : scratch.legacy = ∅) (hr : RestoresRefs p restored) {k : Key}
    (hk : k.NotFinished) (h : ∀ i, k ≠ .blockOutputs i) :
    s.rewound p q scratch restored k = if k ∈ p.rewoundKeys q then none else s.store k := by
  have htip : k ≠ .metaTip := by
    rintro rfl
    exact hk
  rw [rewound_finish hr h htip, finish_skip hlegacy hk, deletions_read]

theorem cut_table {α : Type} {P : MainBlock cx → Prop} {f : MainBlock cx → Option α} {i : Nat}
    {k : Key} (hk : k ∈ p.rewoundKeys q ↔ p.length ≤ i ∧ ∃ b, (p ++ q)[i]? = some b ∧ P b)
    (hf : ∀ b, ¬ P b → f b = none) :
    (if k ∈ p.rewoundKeys q then none else ((p ++ q)[i]?).bind f) = (p[i]?).bind f := by
  by_cases hi : i < p.length
  · rw [if_neg (fun hmem => absurd (hk.1 hmem).1 (by omega)), getElem?_append_left hi]
  · rw [getElem?_eq_none (Nat.le_of_not_lt hi)]
    split
    · rfl
    · rename_i hnot
      cases hget : (p ++ q)[i]? with
      | none => rfl
      | some b =>
        exact hf b (fun hb => hnot (hk.2 ⟨Nat.le_of_not_lt hi,b,hget,hb⟩))

theorem HoldsTables.hash_injective {chain : MainChain cx} (h : HoldsTables s chain) {i j : Nat}
    {b c : MainBlock cx} (hb : chain[i]? = some b) (hc : chain[j]? = some c)
    (heq : b.info.blockHash = c.info.blockHash) : i = j := by
  have hi := (h.hashes b.info.blockHash i).2 ⟨b,hb,rfl⟩
  have hj := (h.hashes b.info.blockHash j).2 ⟨c,hc,heq.symm⟩
  exact Option.some.inj (hi.symm.trans hj)

theorem rewound_hashes (h : HoldsTables s (p ++ q)) (hlegacy : scratch.legacy = ∅)
    (hr : RestoresRefs p restored) (x : Hash) (i : Nat) :
    s.rewound p q scratch restored (.hashToIndex x) = some i ↔
      ∃ b, p[i]? = some b ∧ b.info.blockHash = x := by
  rw [rewound_read hlegacy hr (by trivial) (by simp)]
  constructor
  · intro hi
    split at hi
    · cases hi
    · rename_i hnot
      obtain ⟨b,hb,heq⟩ := (h.hashes x i).1 hi
      by_cases hlt : i < p.length
      · exact ⟨b,by rwa [getElem?_append_left hlt] at hb,heq⟩
      · rw [getElem?_append_right (Nat.le_of_not_lt hlt)] at hb
        exact absurd (mem_rewoundKeys_hashToIndex.2 ⟨b,List.mem_of_getElem? hb,heq.symm⟩) hnot
  · rintro ⟨b,hb,heq⟩
    have hlt := (List.getElem?_eq_some_iff.1 hb).1
    have hb' : (p ++ q)[i]? = some b := by rwa [List.getElem?_append_left hlt]
    rw [if_neg]
    · exact (h.hashes x i).2 ⟨b,hb',heq⟩
    · intro hmem
      obtain ⟨c,hc,rfl⟩ := mem_rewoundKeys_hashToIndex.1 hmem
      obtain ⟨j,hj⟩ := getElem?_of_mem hc
      have hc' : (p ++ q)[p.length + j]? = some c := by
        rwa [getElem?_append_right (by omega), Nat.add_sub_cancel_left]
      have := h.hash_injective hb' hc' heq
      omega

section

variable (h : HoldsTables s (p ++ q)) (hcut : ScratchCut scratch p q) (hr : RestoresRefs p restored)
include h hcut hr

theorem rewound_outputs :
    HoldsLog (fun x n => s.rewound p q scratch restored (.output x n))
      (fun x => s.rewound p q scratch restored (.outputCount x)) p.outputLog := by
  have hlog : HoldsLog (fun x n => s.store (.output x n)) (fun x => s.store (.outputCount x))
      (fun l => recordsOf l (p.outputs ++ outputsFrom p.length q)) := by
    rw [← outputs_append]
    exact h.outputs
  refine hlog.cut hcut.outputs (fun l n => ?_) fun l => ?_
  · refine (rewound_read hcut.legacy hr (by trivial) (by simp)).trans ?_
    exact if_congr mem_rewoundKeys_output rfl rfl
  · have hnot : Key.outputCount l ∉ p.rewoundKeys q := ofBlock_of_mem_rewoundKeys
    rw [rewound_finish hr (by simp) (by simp), finish_outputCount hcut.legacy, deletions_read,
      if_neg hnot]
    cases scratch.lowestOutput.lookup l <;> rfl

theorem rewound_payments :
    HoldsLog (fun x n => s.rewound p q scratch restored (.paymentIdEntry x n))
      (fun x => s.rewound p q scratch restored (.paymentIdCount x)) p.paymentLog := by
  have hlog : HoldsLog (fun x n => s.store (.paymentIdEntry x n))
      (fun x => s.store (.paymentIdCount x))
      (fun l => recordsOf l (p.payments ++ q.payments)) := by
    rw [← payments_append]
    exact h.payments
  refine hlog.cut hcut.payments (fun l n => ?_) fun l => ?_
  · refine (rewound_read hcut.legacy hr (by trivial) (by simp)).trans ?_
    exact if_congr mem_rewoundKeys_paymentIdEntry rfl rfl
  · have hnot : Key.paymentIdCount l ∉ p.rewoundKeys q := ofBlock_of_mem_rewoundKeys
    rw [rewound_finish hr (by simp) (by simp), finish_paymentIdCount hcut.legacy, deletions_read,
      if_neg hnot]
    cases scratch.entryCounts.lookup l with
    | none => rfl
    | some n => simp only [Nat.pos_iff_ne_zero, ne_eq, ite_not, Option.map_some, Option.getD_some]

end

theorem rewound_blockOutputs_cases (hlegacy : scratch.legacy = ∅) (i : Nat) :
    s.rewound p q scratch restored (.blockOutputs i) =
        (if Key.blockOutputs i ∈ p.rewoundKeys q then none else s.store (.blockOutputs i)) ∨
      (⟨.blockOutputs i,s.rewound p q scratch restored (.blockOutputs i)⟩ : WriteOp) ∈ restored := by
  have hread : s.rewound p q scratch restored (.blockOutputs i) = (s.store.writeBatch
      ((p.rewoundKeys q).map deletion ++ scratch.finish)).writeBatch restored (.blockOutputs i) := by
    unfold rewound
    rw [writeBatch_append, writeBatch_of_untouched (by simp), writeBatch_append]
  rw [hread]
  refine (writeBatch_eq_or_mem _ restored (.blockOutputs i)).imp_left fun heq => ?_
  rw [heq, writeBatch_append, finish_skip hlegacy (by trivial), deletions_read]

theorem rewound_blockOutputs_kept (hlegacy : scratch.legacy = ∅) {i : Nat} (hi : i < p.length) :
    s.rewound p q scratch restored (.blockOutputs i) = s.store (.blockOutputs i) ∨
      (⟨.blockOutputs i,s.rewound p q scratch restored (.blockOutputs i)⟩ : WriteOp) ∈ restored := by
  refine (rewound_blockOutputs_cases hlegacy i).imp_left fun heq => heq.trans (if_neg fun hmem => ?_)
  have := (mem_rewoundKeys_blockOutputs.1 hmem).1
  omega

theorem rewound_blockOutputs (h : HoldsTables s (p ++ q)) (hlegacy : scratch.legacy = ∅)
    (hr : RestoresRefs p restored) {i : Nat} {refs : List (Nat × Nat)}
    (hrefs : s.rewound p q scratch restored (.blockOutputs i) = some refs) :
    ∃ b, p[i]? = some b ∧ refs = refsOn (p.take i) b := by
  rcases @rewound_blockOutputs_cases cx s p q scratch restored hlegacy i with heq | hmem
  · rw [heq] at hrefs
    split at hrefs
    · cases hrefs
    · rename_i hnot
      obtain ⟨b,hb,heq⟩ := h.blockOutputs i refs hrefs
      have hlt : i < p.length := by
        by_contra hge
        exact hnot (mem_rewoundKeys_blockOutputs.2 ⟨Nat.le_of_not_lt hge,b,hb,trivial⟩)
      refine ⟨b,by rwa [getElem?_append_left hlt] at hb,?_⟩
      rwa [take_append_of_le_length (Nat.le_of_lt hlt)] at heq
  · rw [hrefs] at hmem
    obtain ⟨j,b,hb,heq⟩ := hr _ hmem
    cases heq
    exact ⟨b,hb,rfl⟩

/-- The state after the tail `q` has been taken off `p`. -/
def ChainState.afterRewind (s : ChainState) (p q : MainChain cx) (scratch : UnwindScratch)
    (restored : List WriteOp) : ChainState :=
  { s with
    store := s.rewound p q scratch restored
    tip := p.tip
    recent := p.infos.drop (p.length - s.cfg.recentWindow)
    blockMedianSize := p.medianSize }

theorem rewound_infos (h : HoldsTables s (p ++ q)) (hlegacy : scratch.legacy = ∅)
    (hr : RestoresRefs p restored) (i : Nat) :
    s.rewound p q scratch restored (.blockInfo i) = (p[i]?).map MainBlock.info := by
  rw [rewound_read hlegacy hr (by trivial) (by simp), h.infos,
    Option.map_eq_bind]
  exact (cut_table mem_rewoundKeys_blockInfo (by simp)).trans
    Option.map_eq_bind.symm

theorem HoldsTables.rewind (h : HoldsTables s (p ++ q)) (hcut : ScratchCut scratch p q)
    (hr : RestoresRefs p restored) : HoldsTables (s.afterRewind p q scratch restored) p where
  tip := rfl
  metaTip := by
    simp [afterRewind, rewound, writeBatch_append]
  infos := rewound_infos h hcut.legacy hr
  hashes := rewound_hashes h hcut.legacy hr
  txHashes i := by
    refine (rewound_read hcut.legacy hr (by trivial) (by simp)).trans ?_
    rw [h.txHashes, Option.map_eq_bind]
    exact (cut_table mem_rewoundKeys_blockTxHashes (by simp)).trans
      Option.map_eq_bind.symm
  blockKeyImages i := by
    refine (rewound_read hcut.legacy hr (by trivial) (by simp)).trans ?_
    rw [h.blockKeyImages]
    exact cut_table mem_rewoundKeys_blockKeyImages (by simp)
  outputs := rewound_outputs h hcut hr
  payments := rewound_payments h hcut hr
  legacy id := by
    have hnot : Key.paymentId id ∉ p.rewoundKeys q := ofBlock_of_mem_rewoundKeys
    refine (rewound_read hcut.legacy hr (by trivial) (by simp)).trans ?_
    rw [if_neg hnot]
    exact h.legacy id
  blockPaymentIds i := by
    refine (rewound_read hcut.legacy hr (by trivial) (by simp)).trans ?_
    rw [h.blockPaymentIds]
    exact cut_table mem_rewoundKeys_blockPaymentIds (by simp)
  blockOutputs _ _ hrefs := rewound_blockOutputs h hcut.legacy hr hrefs
  rawBlocks i raw hraw := by
    rw [show (s.afterRewind p q scratch restored).store = s.rewound p q scratch restored from rfl,
      rewound_read hcut.legacy hr (by trivial) (by simp)] at hraw
    split at hraw
    · cases hraw
    · rename_i hnot
      obtain ⟨b,hb,heq⟩ := h.rawBlocks i raw hraw
      have hlt : i < p.length := by
        by_contra hge
        exact hnot (mem_rewoundKeys_rawBlock.2 ⟨Nat.le_of_not_lt hge,b,hb,trivial⟩)
      exact ⟨b,by rwa [getElem?_append_left hlt] at hb,heq⟩
  recent := rfl

theorem reloadInfos_eq {t : ChainState}
    (hinfos : ∀ i, t.store (.blockInfo i) = (p[i]?).map MainBlock.info) :
    ∀ n start, start + n = p.length →
      t.reloadInfos (range' start n) = .ok (p.infos.drop start) := by
  intro n
  induction n with
  | zero =>
    intro start hlen
    have hdrop : p.infos.drop start = [] := drop_of_length_le (by simp [infos]; omega)
    rw [hdrop]
    rfl
  | succ n ih =>
    intro start hlen
    have hlt : start < p.infos.length := by simp [infos]; omega
    have hget : t.store (.blockInfo start) = some p.infos[start] := by
      rw [hinfos, ← getElem?_map]
      exact getElem?_eq_getElem hlt
    rw [range'_succ, drop_eq_getElem_cons hlt]
    simp only [reloadInfos, hget, orRefuse, bind, Except.bind, ih (start+1) (by omega)]
    rfl

theorem reload_eq (h : HoldsTables s (p ++ q)) (hcut : ScratchCut scratch p q)
    (hr : RestoresRefs p restored) {t : ChainState}
    (hstore : t.store = s.rewound p q scratch restored) (htip : t.tip = p.tip)
    (hcfg : t.cfg = s.cfg) :
    (do reloadRecent; updateBlockMedianSize : ChainM PUnit) t =
      .ok ⟨⟩ { t with
        recent := p.infos.drop (p.length - s.cfg.recentWindow)
        blockMedianSize := p.medianSize } := by
  have hreload : reloadRecent t =
      .ok ⟨⟩ { t with recent := p.infos.drop (p.length - s.cfg.recentWindow) } := by
    unfold reloadRecent
    split
    · rename_i hnone
      have hnil := tip_eq_none_iff.1 (htip.symm.trans hnone)
      subst hnil
      simp [infos]
    · rename_i tip hsome
      have hlen := tip_eq_some_iff.1 (htip.symm.trans hsome)
      have hstart : tip + 1 - t.cfg.recentWindow = p.length - s.cfg.recentWindow := by
        rw [hcfg, hlen]
      have hinfos := rewound_infos h hcut.legacy hr
      rw [← hstore] at hinfos
      simp only [hstart]
      rw [reloadInfos_eq hinfos _ _ (by omega)]
  have htables : HoldsTables
      { t with recent := p.infos.drop (p.length - s.cfg.recentWindow) } p :=
    (h.rewind hcut hr).congr hstore hcfg htip rfl
  rw [run_bind_of_ok hreload]
  exact htables.updateBlockMedianSize_spec.1

/-- The pair record of a block of `p` goes while `q` is pushed on `p`. -/
def FellWith (s : ChainState) (p q : MainChain cx) (i : Nat) : Prop :=
  p.length ≤ i + s.cfg.unwindHistory ∧ i + s.cfg.unwindHistory < (p ++ q).length ∧ s.HasBody i

/-- What taking `q` off `p` does to a state. -/
structure TakenOff (s t : ChainState) (p q : MainChain cx) : Prop where
  holds : HoldsChain t p
  env : SameEnv s t
  keyImage : ∀ k, t.store (.keyImage k) =
    if ∃ b ∈ q, k ∈ b.images then none else s.store (.keyImage k)
  transactionIndex : ∀ h, t.store (.transactionIndex h) =
    if ∃ b ∈ q, h ∈ b.txHashes then none else s.store (.transactionIndex h)
  rawBlock : ∀ i, i < p.length → t.store (.rawBlock i) = s.store (.rawBlock i)
  /-- The pair records of the blocks that stay are not lost. -/
  blockOutputs : ∀ i refs, i < p.length → s.store (.blockOutputs i) = some refs →
    t.store (.blockOutputs i) = some refs
  /-- Those that are put back went while `q` was pushed. -/
  putBack : ∀ i, t.HasRefs i → i < p.length ∧ (s.HasRefs i ∨ FellWith s p q i)

/-- `q` is taken off block by block, which puts no pair record back. -/
structure Unwinds (s t : ChainState) (p q : MainChain cx) : Prop extends TakenOff s t p q where
  sameRefs : ∀ i, i < p.length → t.store (.blockOutputs i) = s.store (.blockOutputs i)

/-- `q` is taken off at once, and the records that fell with it are put back. -/
structure Rewinds (s t : ChainState) (p q : MainChain cx) : Prop extends TakenOff s t p q where
  restored : ∀ i, i < p.length → FellWith s p q i → t.HasRefs i

theorem HoldsTables.hasRefs_lt (h : HoldsTables s p) {i : Nat} (hi : s.HasRefs i) :
    i < p.length := by
  obtain ⟨refs,hrefs⟩ := Option.isSome_iff_exists.1 hi
  obtain ⟨b,hb,_⟩ := h.blockOutputs i refs hrefs
  exact (List.getElem?_eq_some_iff.1 hb).1

theorem HoldsTables.hasBody_lt (h : HoldsTables s p) {i : Nat} (hi : s.HasBody i) :
    i < p.length := by
  obtain ⟨raw,hraw⟩ := Option.isSome_iff_exists.1 hi
  obtain ⟨b,hb,_⟩ := h.rawBlocks i raw hraw
  exact (List.getElem?_eq_some_iff.1 hb).1

theorem Unwinds.refl (h : HoldsChain s p) : Unwinds s s p [] where
  holds := h
  env := SameEnv.refl s
  keyImage := by simp
  transactionIndex := by simp
  rawBlock _ _ := rfl
  blockOutputs _ _ _ hrefs := hrefs
  putBack _ hi := ⟨h.hasRefs_lt hi,.inl hi⟩
  sameRefs _ _ := rfl

theorem TakenOff.knowsRefs {t : ChainState} (h : TakenOff s t p q) {i : Nat} (hi : i < p.length)
    (hknows : s.KnowsRefs i) : t.KnowsRefs i := by
  rcases hknows with hrefs | hraw
  · obtain ⟨refs,hrefs⟩ := Option.isSome_iff_exists.1 hrefs
    exact .inl (by rw [h.blockOutputs i refs hi hrefs]; rfl)
  · exact .inr (by rw [h.rawBlock i hi]; exact hraw)

theorem ite_exists_append {α : Type} {P : MainBlock cx → Prop} [DecidablePred P]
    (q q' : MainChain cx) (x : Option α) :
    (if ∃ b ∈ q, P b then none else if ∃ b ∈ q', P b then none else x) =
      if ∃ b ∈ q ++ q', P b then none else x := by
  by_cases hq : ∃ b ∈ q, P b
  · obtain ⟨b,hb,hk⟩ := hq
    rw [if_pos ⟨b,hb,hk⟩, if_pos ⟨b,mem_append_left _ hb,hk⟩]
  · rw [if_neg hq]
    refine if_congr ?_ rfl rfl
    simp only [mem_append, or_and_right, exists_or, hq, false_or]

theorem TakenOff.trans {t u : ChainState} {q' : MainChain cx} (h : TakenOff s t (p ++ q) q')
    (h' : TakenOff t u p q) : TakenOff s u p (q ++ q') where
  holds := h'.holds
  env := h.env.trans h'.env
  keyImage k := by
    rw [h'.keyImage, h.keyImage]
    exact ite_exists_append q q' _
  transactionIndex x := by
    rw [h'.transactionIndex, h.transactionIndex]
    exact ite_exists_append q q' _
  rawBlock i hi := by
    rw [h'.rawBlock i hi, h.rawBlock i (by simp; omega)]
  blockOutputs i refs hi hrefs :=
    h'.blockOutputs i refs hi (h.blockOutputs i refs (by simp; omega) hrefs)
  putBack i hi := by
    obtain ⟨hlt,hcases⟩ := h'.putBack i hi
    refine ⟨hlt,?_⟩
    rcases hcases with hrefs | hfell
    · rcases (h.putBack i hrefs).2 with hrefs | hfell
      · exact .inl hrefs
      · obtain ⟨hge,hle,hbody⟩ := hfell
        simp only [length_append] at hge hle
        exact .inr ⟨by omega,by simp only [length_append]; omega,hbody⟩
    · obtain ⟨hge,hle,hbody⟩ := hfell
      rw [h.env.cfg] at hge hle
      unfold ChainState.HasBody at hbody
      rw [h.rawBlock i (by simp; omega)] at hbody
      simp only [length_append] at hle
      exact .inr ⟨hge,by simp only [length_append]; omega,hbody⟩

theorem Unwinds.trans {t u : ChainState} {q' : MainChain cx} (h : Unwinds s t (p ++ q) q')
    (h' : Unwinds t u p q) : Unwinds s u p (q ++ q') where
  toTakenOff := h.toTakenOff.trans h'.toTakenOff
  sameRefs i hi := by rw [h'.sameRefs i hi, h.sameRefs i (by simp; omega)]

/-- The records put back are those of blocks with a body that fell with `q`. -/
def RestoresFallen (s : ChainState) (p q : MainChain cx) (restored : List WriteOp) : Prop :=
  ∀ i, (∃ refs, (⟨.blockOutputs i,refs⟩ : WriteOp) ∈ restored) → FellWith s p q i

variable (h : HoldsTables s (p ++ q)) (hcut : ScratchCut scratch p q)
include h hcut

theorem takenOff_afterRewind
    (hr : RestoresRefs p restored) (hfallen : RestoresFallen s p q restored) :
    TakenOff s (s.afterRewind p q scratch restored) p q where
  holds := ⟨h.rewind hcut hr,rfl⟩
  env := ⟨rfl,rfl,rfl,rfl,rfl⟩
  keyImage k := by
    refine (rewound_read hcut.legacy hr (by trivial) (by simp)).trans ?_
    exact if_congr mem_rewoundKeys_keyImage rfl rfl
  transactionIndex x := by
    refine (rewound_read hcut.legacy hr (by trivial) (by simp)).trans ?_
    exact if_congr mem_rewoundKeys_transactionIndex rfl rfl
  rawBlock i hi := by
    refine (rewound_read hcut.legacy hr (by trivial) (by simp)).trans ?_
    rw [if_neg]
    intro hmem
    have := (mem_rewoundKeys_rawBlock.1 hmem).1
    omega
  blockOutputs i refs hi hrefs := by
    change s.rewound p q scratch restored (.blockOutputs i) = some refs
    obtain ⟨b,hb,hrefs'⟩ := h.blockOutputs i refs hrefs
    rw [getElem?_append_left hi] at hb
    rw [take_append_of_le_length (Nat.le_of_lt hi)] at hrefs'
    rcases @rewound_blockOutputs_kept cx s p q scratch restored hcut.legacy i hi with heq | hmem
    · rw [heq, hrefs]
    · -- a record put back is the one the block had
      generalize s.rewound p q scratch restored (.blockOutputs i) = value at hmem ⊢
      obtain ⟨j,c,hc,hop⟩ := hr _ hmem
      cases hop
      rw [hb] at hc
      cases hc
      rw [hrefs']
  putBack i hi := by
    have hlt := (h.rewind hcut hr).hasRefs_lt hi
    refine ⟨hlt,?_⟩
    change (s.rewound p q scratch restored (.blockOutputs i)).isSome = true at hi
    rcases @rewound_blockOutputs_kept cx s p q scratch restored hcut.legacy i hlt with heq | hmem
    · rw [heq] at hi
      exact .inl hi
    · exact .inr (hfallen i ⟨_,hmem⟩)

theorem rewinds_afterRewind (hr : RestoresRefs p restored) (hfallen : RestoresFallen s p q restored)
    (hall : ∀ i, i < p.length → FellWith s p q i → ¬ s.HasRefs i →
      ∃ refs, (⟨.blockOutputs i,refs⟩ : WriteOp) ∈ restored) :
    Rewinds s (s.afterRewind p q scratch restored) p q where
  toTakenOff := takenOff_afterRewind h hcut hr hfallen
  restored i hi hfell := by
    by_cases hrefs : s.HasRefs i
    · obtain ⟨refs,hrefs⟩ := Option.isSome_iff_exists.1 hrefs
      have := (takenOff_afterRewind h hcut hr hfallen).blockOutputs i refs hi hrefs
      exact Option.isSome_iff_exists.2 ⟨refs,this⟩
    · obtain ⟨refs,hmem⟩ := hall i hi hfell hrefs
      -- all writes to the record write the pairs of the block
      have hvalue : ∀ refs', (⟨.blockOutputs i,refs'⟩ : WriteOp) ∈ restored → refs' = refs := by
        intro refs' hmem'
        obtain ⟨j,c,hc,hop⟩ := hr _ hmem
        obtain ⟨j',c',hc',hop'⟩ := hr _ hmem'
        cases hop
        cases hop'
        rw [hc] at hc'
        cases hc'
        rfl
      have hsome : refs.isSome = true := by
        obtain ⟨j,c,hc,hop⟩ := hr _ hmem
        cases hop
        rfl
      change (s.rewound p q scratch restored (.blockOutputs i)).isSome = true
      unfold rewound
      rw [writeBatch_append, writeBatch_of_untouched (by simp),
        writeBatch_append, writeBatch_of_mem hmem hvalue]
      exact hsome

theorem unwinds_afterRewind : Unwinds s (s.afterRewind p q scratch []) p q where
  toTakenOff := takenOff_afterRewind h hcut (RestoresRefs.nil p) (by simp [RestoresFallen])
  sameRefs i hi := by
    exact (rewound_blockOutputs_kept hcut.legacy hi).resolve_right not_mem_nil

end Rewound

section UnwindBlock

variable {p q : MainChain cx} {b : MainBlock cx}

theorem HoldsChain.unwindBlock_ok (h : HoldsChain s (p ++ [b])) (hknows : s.KnowsRefs p.length) :
    ∃ t, unwindBlock cx p.length s = .ok ⟨⟩ t ∧ Unwinds s t p [b] ∧
      t.altBlocks = s.altBlocks ∧ t.unwound = s.unwound := by
  obtain ⟨scratch,hops,hcut⟩ := h.toHoldsTables.unwindOps_eq (ScratchCut.empty _) hknows
  have htip : s.tip = some p.length := by rw [h.tip, tip_concat]
  have hr := RestoresRefs.nil p
  refine ⟨s.afterRewind p [b] scratch [],?_,unwinds_afterRewind h.toHoldsTables hcut,rfl,rfl⟩
  unfold unwindBlock
  rw [run_get_bind, run_liftExcept_of_ok (a := ⟨⟩) (refuseIf_ok_iff.2 (not_not.2 htip)),
    run_liftExcept_of_ok hops]
  have hnewTip : (if p.length = 0 then none else some (p.length-1)) = p.tip :=
    (tip_eq_ite p).symm
  have hstore : s.store.writeBatch ((p.unwoundKeys b).map deletion ++ scratch.finish ++
      [(⟨.metaTip,p.tip⟩ : WriteOp)]) = s.rewound p [b] scratch [] := by
    simp [rewound, rewoundKeys]
  simp only [hnewTip, hstore]
  exact reload_eq h.toHoldsTables hcut hr
    (t := { s with store := s.rewound p [b] scratch [], tip := p.tip }) rfl rfl rfl

theorem HoldsChain.unwindBlock_error (h : HoldsChain s (p ++ [b]))
    (hknows : ¬ s.KnowsRefs p.length) :
    unwindBlock cx p.length s =
      .error (.rule (.reorganisationUnavailable p.length)) s := by
  have htip : s.tip = some p.length := by rw [h.tip, tip_concat]
  have hops := h.toHoldsTables.unwindOps_unavailable (ScratchCut.empty _) hknows
  unfold unwindBlock
  rw [run_get_bind, run_liftExcept_of_ok (a := ⟨⟩) (refuseIf_ok_iff.2 (not_not.2 htip)),
    run_liftExcept_of_error hops]

theorem mem_droppedIndexes {history top oldTip i : Nat} :
    i ∈ droppedIndexes history top oldTip ↔
      i ≤ top ∧ top < i + history ∧ i + history ≤ oldTip := by
  unfold droppedIndexes
  split
  · simp
    omega
  · rw [mem_range'_1]
    omega

theorem HoldsTables.restoreOutputRefs_eq (h : HoldsTables s (p ++ q)) (idxs : List Nat)
    (hidx : ∀ i ∈ idxs, i < p.length) :
    ∃ restored, s.restoreOutputRefs cx idxs = .ok restored ∧ RestoresRefs p restored ∧
      ∀ i, (∃ refs, (⟨.blockOutputs i,refs⟩ : WriteOp) ∈ restored) ↔
        i ∈ idxs ∧ ¬ s.HasRefs i ∧ s.HasBody i := by
  induction idxs with
  | nil => exact ⟨[],rfl,RestoresRefs.nil p,by simp⟩
  | cons i idxs ih =>
    obtain ⟨restored,heq,hr,hiff⟩ := ih (fun j hj => hidx j (mem_cons_of_mem _ hj))
    have hi := hidx i mem_cons_self
    unfold restoreOutputRefs
    split
    · rename_i hrefs
      refine ⟨restored,heq,hr,fun j => ?_⟩
      rw [hiff j, mem_cons]
      have hne : ¬ s.HasRefs j → j ≠ i := by
        intro hnot hji
        subst hji
        exact hnot hrefs
      exact ⟨fun hj => ⟨.inr hj.1,hj.2⟩,fun hj => ⟨hj.1.resolve_left (hne hj.2.1),hj.2⟩⟩
    · rename_i hnorefs
      by_cases hknows : s.KnowsRefs i
      · have hsplit : p ++ q = p.take i ++ p.get ⟨i,hi⟩ :: (p.drop (i+1) ++ q) := by
          have hdrop := drop_eq_getElem_cons hi
          rw [← cons_append, get_eq_getElem, ← hdrop, ← append_assoc, take_append_drop]
        have hlen : (p.take i).length = i := by simp; omega
        have hrefs := HoldsTables.blockOutputRefs_of_knowsRefs (hsplit ▸ h) (by rwa [hlen])
        rw [hlen] at hrefs
        refine ⟨⟨.blockOutputs i, some (refsOn (p.take i) (p.get ⟨i,hi⟩))⟩ :: restored,
          by simp [hrefs, heq, bind, Except.bind, pure, Except.pure],?_,fun j => ?_⟩
        · intro op hop
          rcases mem_cons.1 hop with rfl | hop
          · exact ⟨i,p.get ⟨i,hi⟩,by simp [hi],rfl⟩
          · exact hr op hop
        · have hbody : s.HasBody i := hknows.resolve_left hnorefs
          by_cases hji : j = i
          · subst hji
            exact ⟨fun _ => ⟨mem_cons_self,hnorefs,hbody⟩,fun _ => ⟨_,mem_cons_self⟩⟩
          · simp only [mem_cons, Sigma.mk.injEq, Key.blockOutputs.injEq, hji, false_and, false_or]
            exact hiff j
      · refine ⟨restored,?_,hr,fun j => ?_⟩
        · simp [blockOutputRefs_of_not_knowsRefs hknows, heq, bind, Except.bind, pure, Except.pure]
        · rw [hiff j, mem_cons]
          have hne : s.HasBody j → j ≠ i := by
            intro hbody hji
            subst hji
            exact hknows (.inr hbody)
          exact ⟨fun hj => ⟨.inr hj.1,hj.2⟩,fun hj => ⟨hj.1.resolve_left (hne hj.2.2),hj.2⟩⟩

variable {top : Nat} (h : HoldsChain s (p ++ q)) (hp : p.length = top + 1) (hq : q ≠ [])
include h hp hq

theorem HoldsChain.rewindTo_ok (hlite : ¬ (s.cfg.liteStartHeight ≠ 0 ∧ top + 1 < s.cfg.liteStartHeight))
    (hknows : ∀ i, p.length ≤ i → i < p.length + q.length → s.KnowsRefs i) :
    ∃ t, rewindTo cx top s = .ok q.length t ∧ Rewinds s t p q ∧
      t.altBlocks = ∅ ∧ t.unwound = [] := by
  obtain ⟨scratch,hops,hcut⟩ := h.toHoldsTables.rewindOps_eq q p hknows
  have hqlen : 0 < q.length := length_pos_iff.2 hq
  have htip : s.tip = some (top + q.length) := by
    rw [h.tip]
    exact tip_eq_some_iff.2 (by simp; omega)
  obtain ⟨restored,hrestored,hr,hback⟩ := h.toHoldsTables.restoreOutputRefs_eq
    (droppedIndexes s.cfg.unwindHistory top (top + q.length))
    (fun i hi => by have := mem_droppedIndexes.1 hi; omega)
  have htips : top + q.length - top = q.length := by omega
  rw [hp, ← htips] at hops
  have hptip : some top = p.tip := (tip_eq_some_iff.2 hp).symm
  have hstore : s.store.writeBatch ((p.rewoundKeys q).map deletion ++ scratch.finish ++ restored ++
      [(⟨.metaTip,some top⟩ : WriteOp)]) = s.rewound p q scratch restored := by
    rw [hptip]
    rfl
  have hreload := reload_eq h.toHoldsTables hcut hr
    (t := { s with
      store := s.rewound p q scratch restored
      tip := p.tip
      altBlocks := ∅
      unwound := [] }) rfl rfl rfl
  have hfallen : RestoresFallen s p q restored := by
    intro i hi
    obtain ⟨hmem,_,hbody⟩ := (hback i).1 hi
    obtain ⟨_,hge,hle⟩ := mem_droppedIndexes.1 hmem
    exact ⟨by omega,by simp only [length_append]; omega,hbody⟩
  have hall : ∀ i, i < p.length → FellWith s p q i → ¬ s.HasRefs i →
      ∃ refs, (⟨.blockOutputs i,refs⟩ : WriteOp) ∈ restored := by
    intro i hi hfell hnot
    obtain ⟨hge,hle,hbody⟩ := hfell
    simp only [length_append] at hle
    exact (hback i).2 ⟨mem_droppedIndexes.2 (by omega),hnot,hbody⟩
  have hoff := rewinds_afterRewind h.toHoldsTables hcut hr hfallen hall
  refine ⟨{ s.afterRewind p q scratch restored with altBlocks := ∅, unwound := [] },?_,
    ⟨⟨hoff.holds.congr rfl rfl rfl rfl rfl,⟨rfl,rfl,rfl,rfl,rfl⟩,hoff.keyImage,
      hoff.transactionIndex,hoff.rawBlock,hoff.blockOutputs,hoff.putBack⟩,hoff.restored⟩,rfl,rfl⟩
  unfold rewindTo
  rw [run_get_bind]
  simp only [htip]
  rw [if_neg (by omega), run_liftExcept_of_ok (a := ⟨⟩) (refuseIf_ok_iff.2 hlite),
    run_liftExcept_of_ok hops]
  simp only
  rw [run_liftExcept_of_ok hrestored]
  simp only [hstore]
  rw [hptip, htips, run_set_bind]
  rw [← bind_assoc, run_bind_of_ok hreload]
  rfl

theorem HoldsChain.rewindTo_cases :
    (∃ t, rewindTo cx top s = .ok q.length t ∧ Rewinds s t p q ∧ t.altBlocks = ∅ ∧ t.unwound = []) ∨
    ∃ e, rewindTo cx top s = .error e s := by
  have hqlen : 0 < q.length := length_pos_iff.2 hq
  have htip : s.tip = some (top + q.length) := by
    rw [h.tip]
    exact tip_eq_some_iff.2 (by simp; omega)
  have htips : top + q.length - top = q.length := by omega
  by_cases hlite : s.cfg.liteStartHeight ≠ 0 ∧ top + 1 < s.cfg.liteStartHeight
  · right
    refine ⟨.rule (.reorganisationBelowBodyFloor (top+1) s.cfg.liteStartHeight),?_⟩
    unfold rewindTo
    rw [run_get_bind]
    simp only [htip]
    rw [if_neg (by omega), run_liftExcept_of_error (refuseIf_error_iff.2 ⟨hlite,rfl⟩)]
  · by_cases hknows : ∀ i, p.length ≤ i → i < p.length + q.length → s.KnowsRefs i
    · exact .inl (h.rewindTo_ok hp hq hlite hknows)
    · right
      cases hops : s.rewindOps cx (range' (top+1) (top + q.length - top)).reverse {} with
      | ok r =>
        have hall := rewindOps_ok_knowsRefs hops
        refine absurd (fun i hi hi' => hall i ?_) hknows
        rw [mem_reverse, mem_range'_1]
        omega
      | error e =>
        refine ⟨e,?_⟩
        unfold rewindTo
        rw [run_get_bind]
        simp only [htip]
        rw [if_neg (by omega), run_liftExcept_of_ok (a := ⟨⟩) (refuseIf_ok_iff.2 hlite),
          run_liftExcept_of_error hops]

end UnwindBlock

end Wrkz
