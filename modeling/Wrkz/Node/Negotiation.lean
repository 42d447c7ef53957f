import Wrkz.Chain.Finality
import Wrkz.Node.Peers

/-!
Two nodes agree on where their chains part. The requester lists blocks at doubling
distances below its tip, the server answers with at most ten thousand ids from the first
one it knows. The ids the requester then lacks start right above the fork, unless the
match lies so far below the fork that the answer ends before it.
-/

set_option autoImplicit false

namespace Wrkz

open Library List

theorem sparseBelow_sorted (tip : Nat) : ∀ (fuel i : Nat), 0 < i →
    (sparseBelow tip fuel i).Pairwise (· > ·) ∧ ∀ x ∈ sparseBelow tip fuel i, 0 < x ∧ x ≤ tip - i
  | 0, _, _ => by simp [sparseBelow]
  | fuel+1, i, hi => by
    unfold sparseBelow
    split_ifs with hlt hnext
    · obtain ⟨hsorted,hmem⟩ := sparseBelow_sorted tip fuel (i*2) (by omega)
      refine ⟨pairwise_cons.2 ⟨fun x hx => ?_,hsorted⟩,fun x hx => ?_⟩
      · have := hmem x hx
        omega
      · rcases mem_cons.1 hx with rfl | hx
        · omega
        · have := hmem x hx
          omega
    · simp only [pairwise_singleton, mem_singleton, true_and]
      omega
    · simp

theorem sparseChainIndices_eq (tip : Nat) :
    sparseChainIndices tip = tip :: sparseBelow tip 32 1 ++ (if tip ≠ 0 then [0] else []) := by
  obtain ⟨hsorted,hmem⟩ := sparseBelow_sorted tip 32 1 (by decide)
  refine destutter_of_isChain _ _ (List.Pairwise.isChain ?_)
  refine List.Pairwise.imp (R := (· > ·)) (fun h => Nat.ne_of_gt h) ?_
  rw [cons_append]
  refine pairwise_cons.2 ⟨fun x hx => ?_,pairwise_append.2 ⟨hsorted,?_,fun x hx y hy => ?_⟩⟩
  · rcases mem_append.1 hx with hx | hx
    · have := hmem x hx
      omega
    · split_ifs at hx with htip
      · cases mem_singleton.1 hx
        omega
      · cases hx
  · split_ifs <;> simp
  · split_ifs at hy with htip
    · cases mem_singleton.1 hy
      exact (hmem x hx).1
    · cases hy

theorem sparseBelow_length (tip : Nat) : ∀ fuel i, (sparseBelow tip fuel i).length ≤ fuel
  | 0, _ => Nat.le_refl 0
  | fuel+1, i => by
    unfold sparseBelow
    split_ifs
    · exact Nat.succ_le_succ (sparseBelow_length tip fuel (i*2))
    · simp
    · simp

theorem sparseChainIndices_length (tip : Nat) : (sparseChainIndices tip).length ≤ 34 := by
  have := sparseBelow_length tip 32 1
  rw [sparseChainIndices_eq]
  split_ifs <;> simp <;> omega

theorem le_of_mem_sparseChainIndices {tip i : Nat} (h : i ∈ sparseChainIndices tip) : i ≤ tip := by
  rw [sparseChainIndices_eq, cons_append] at h
  rcases mem_cons.1 h with rfl | h
  · exact Nat.le_refl _
  · rcases mem_append.1 h with h | h
    · exact ((sparseBelow_sorted tip 32 1 (by decide)).2 i h).2.trans (Nat.sub_le _ _)
    · split_ifs at h
      · cases mem_singleton.1 h
        exact Nat.zero_le _
      · cases h

theorem sparseChainIndices_getLast? (tip : Nat) : (sparseChainIndices tip).getLast? = some 0 := by
  rw [sparseChainIndices_eq]
  by_cases h : tip = 0
  · subst h
    decide
  · rw [if_pos h, getLast?_append]
    rfl

def matchIndex (tip fork : Nat) : Nat := ((sparseChainIndices tip).find? (· ≤ fork)).getD 0

theorem find?_sparseChainIndices (tip fork : Nat) :
    (sparseChainIndices tip).find? (· ≤ fork) = some (matchIndex tip fork) ∧
      matchIndex tip fork ≤ fork := by
  have hzero : 0 ∈ sparseChainIndices tip := mem_of_getLast? (sparseChainIndices_getLast? tip)
  have hsome : ((sparseChainIndices tip).find? (· ≤ fork)).isSome :=
    find?_isSome.2 ⟨0,hzero,by simp⟩
  obtain ⟨s,hs⟩ := Option.isSome_iff_exists.1 hsome
  have hmatch : matchIndex tip fork = s := by rw [matchIndex, hs]; rfl
  rw [hmatch]
  have hle : decide (s ≤ fork) = true := find?_some (p := fun x => decide (x ≤ fork)) hs
  exact ⟨hs,of_decide_eq_true hle⟩

/-- With the last index above the fork at distance `i/2`, the match is not further below
the fork than the fork is below the tip. -/
theorem find?_sparseBelow {tip fork : Nat} (hfork : fork < tip) (htip : tip < 2^32) :
    ∀ (fuel i : Nat), 0 < i → i / 2 < tip - fork → tip ≤ i * 2^fuel →
      ∀ s, (sparseBelow tip fuel i ++ [0]).find? (· ≤ fork) = some s → fork - s ≤ tip - fork
  | 0, i, _, hbefore, henough, s, h => by
    simp only [sparseBelow, nil_append, find?_singleton, Nat.zero_le, decide_true,
      if_true, Option.some.injEq] at h
    omega
  | fuel+1, i, hi, hbefore, henough, s, h => by
    unfold sparseBelow at h
    split_ifs at h with hlt hnext
    · rw [cons_append, find?_cons] at h
      by_cases hle : tip - i ≤ fork
      · simp only [hle, decide_true, Option.some.injEq] at h
        omega
      · simp only [hle, decide_false] at h
        refine find?_sparseBelow hfork htip fuel (i*2) (by omega) (by omega) ?_ s h
        rw [Nat.mul_assoc, ← Nat.pow_succ']
        exact henough
    · by_cases hle : tip - i ≤ fork
      · simp only [cons_append, nil_append, find?_cons, hle, decide_true, Option.some.injEq] at h
        omega
      · simp only [cons_append, nil_append, find?_cons, hle, decide_false,
          Nat.zero_le, decide_true, Option.some.injEq] at h
        omega
    · simp only [nil_append, find?_singleton, Nat.zero_le, decide_true, if_true,
        Option.some.injEq] at h
      omega

theorem matchIndex_near {tip fork : Nat} (hfork : fork ≤ tip) (htip : tip < 2^32) :
    fork - matchIndex tip fork ≤ tip - fork := by
  obtain ⟨hfind,_⟩ := find?_sparseChainIndices tip fork
  rw [sparseChainIndices_eq, cons_append, find?_cons] at hfind
  rcases Nat.lt_or_eq_of_le hfork with hlt | rfl
  · have hnot : ¬ tip ≤ fork := Nat.not_le.2 hlt
    simp only [hnot, decide_false] at hfind
    rw [if_pos (by omega)] at hfind
    exact find?_sparseBelow hlt htip 32 1 (by decide) (by omega) (by omega) _ hfind
  · simp only [Nat.le_refl, decide_true, Option.some.injEq] at hfind
    omega

def MainChain.idAt {cx : Crypto} (chain : MainChain cx) (i : Nat) : Option Hash :=
  (chain[i]?).map fun b => b.info.blockHash

def ChainState.hashAt (s : ChainState) (i : Nat) : Option Hash :=
  (s.blockInfo i).map BlockInfo.blockHash

section

variable {cx : Crypto} {U : Set RawBlock} {ours theirs : MainChain cx} {s : ChainState} {fork : Nat}

theorem HoldsTables.hashAt_eq (h : HoldsTables s ours) (i : Nat) : s.hashAt i = ours.idAt i := by
  unfold ChainState.hashAt MainChain.idAt
  rw [h.blockInfo_eq, Option.map_map]
  rfl

variable {x : Hash} {i : Nat} {ids : List Hash}

theorem HoldsTables.blockIndexByHash_eq_some (h : HoldsTables s ours) :
    s.blockIndexByHash x = some i ↔ ours.idAt i = some x := by
  rw [h.blockIndexByHash_iff, MainChain.idAt, Option.map_eq_some_iff]

theorem HoldsTables.chainHash_eq (h : HoldsTables s ours)
    (hx : ours.idAt i = some x) : s.chainHash i = .ok x := by
  obtain ⟨b,hb,rfl⟩ := Option.map_eq_some_iff.1 hx
  unfold ChainState.chainHash
  rw [h.blockInfo_eq, hb]
  rfl

theorem MainChain.idAt_of_lt (chain : MainChain cx) (h : i < chain.length) :
    ∃ x, chain.idAt i = some x :=
  ⟨_,by rw [MainChain.idAt, getElem?_eq_getElem h]; rfl⟩

theorem HoldsTables.chainHashes_eq (h : HoldsTables s ours) (idxs : List Nat)
    (hidx : ∀ i ∈ idxs, i < ours.length) :
    ∃ ids, s.chainHashes idxs = .ok ids ∧ ids.map some = idxs.map ours.idAt := by
  induction idxs with
  | nil => exact ⟨[],rfl,rfl⟩
  | cons i rest ih =>
    obtain ⟨x,hx⟩ := ours.idAt_of_lt (hidx i mem_cons_self)
    obtain ⟨ids,hids,hmap⟩ := ih fun j hj => hidx j (mem_cons_of_mem _ hj)
    refine ⟨x :: ids,?_,by rw [map_cons, map_cons, hmap, hx]⟩
    rw [ChainState.chainHashes, h.chainHash_eq hx, hids]
    rfl

/-- The chains are the same up to `fork` and part above it, below the tip of `theirs`. -/
structure Forked (ours theirs : MainChain cx) (fork : Nat) : Prop where
  below : fork < ours.length
  ahead : fork + 1 < theirs.length
  same : ∀ i, i ≤ fork → ours.idAt i = theirs.idAt i
  apart : ours.idAt (fork+1) ≠ theirs.idAt (fork+1)

section

variable (hU : UniqueIds cx U) (ho : Linked U ours) (ht : Linked U theirs)
include hU ho ht

theorem Linked.place
    {i j : Nat} (hi : ours.idAt i = some x) (hj : theirs.idAt j = some x) :
    i = j ∧ ∃ b b', ours[i]? = some b ∧ theirs[j]? = some b' ∧ b.block = b'.block := by
  obtain ⟨b,hb,hbx⟩ := Option.map_eq_some_iff.1 hi
  obtain ⟨b',hb',hbx'⟩ := Option.map_eq_some_iff.1 hj
  have hblock : b.block = b'.block :=
    hU _ ⟨b.raw,ho.known b (mem_of_getElem? hb),b.parsed⟩ _
      ⟨b'.raw,ht.known b' (mem_of_getElem? hb'),b'.parsed⟩ x (by rw [b.hashed, hbx])
      (by rw [b'.hashed, hbx'])
  have hheight := ho.height i b hb
  rw [hblock, ht.height j b' hb'] at hheight
  exact ⟨(Option.some.inj hheight).symm,b,b',hb,hb',hblock⟩

theorem Linked.same_below
    (hi : ours.idAt i = some x) (hj : theirs.idAt i = some x) :
    ∀ k, k ≤ i → ours.idAt k = theirs.idAt k := by
  induction i generalizing x with
  | zero =>
    intro k hk
    cases Nat.le_zero.1 hk
    rw [hi, hj]
  | succ i ih =>
    intro k hk
    rcases Nat.lt_or_eq_of_le hk with hlt | rfl
    · obtain ⟨_,b,b',hb,hb',hblock⟩ := ho.place hU ht hi hj
      have hlen : i < ours.length := by have := (List.getElem?_eq_some_iff.1 hb).1; omega
      have hlen' : i < theirs.length := by have := (List.getElem?_eq_some_iff.1 hb').1; omega
      have hp := ho.parent i _ b (List.getElem?_eq_getElem hlen) hb
      have hp' := ht.parent i _ b' (List.getElem?_eq_getElem hlen') hb'
      rw [hblock, hp'] at hp
      refine ih (x := (theirs.get ⟨i,hlen'⟩).info.blockHash) ?_ ?_ k (by omega)
      · rw [MainChain.idAt, getElem?_eq_getElem hlen, Option.map_some, ← hp]
        rfl
      · rw [MainChain.idAt, getElem?_eq_getElem hlen']
        rfl
    · rw [hi, hj]

end

variable (h : Forked ours theirs fork) (hU : UniqueIds cx U) (ho : Linked U ours)
  (ht : Linked U theirs)
include h hU ho ht

theorem Forked.le_fork {i j : Nat} (hi : ours.idAt i = some x)
    (hj : theirs.idAt j = some x) : i = j ∧ i ≤ fork := by
  obtain ⟨rfl,_⟩ := ho.place hU ht hi hj
  refine ⟨rfl,Nat.le_of_not_lt fun hlt => ?_⟩
  exact h.apart (ho.same_below hU ht hi hj (fork+1) hlt)

theorem Forked.findSome? (hs : HoldsTables s theirs) {idxs : List Nat}
    (hids : ids.map some = idxs.map ours.idAt) :
    ids.findSome? s.blockIndexByHash = idxs.find? (· ≤ fork) := by
  induction idxs generalizing ids with
  | nil =>
    cases map_eq_nil_iff.1 hids
    rfl
  | cons i rest ih =>
    obtain ⟨x,ids,rfl,hsame⟩ := map_eq_cons_iff.1 hids
    rw [findSome?_cons, find?_cons]
    by_cases hle : i ≤ fork
    · have hfound : s.blockIndexByHash x = some i :=
        hs.blockIndexByHash_eq_some.2 (by rw [← h.same i hle, ← hsame.1])
      simp [hfound, hle]
    · have hnone : s.blockIndexByHash x = none := by
        cases hj : s.blockIndexByHash x with
        | none => rfl
        | some j =>
          exact absurd (h.le_fork hU ho ht hsame.1.symm (hs.blockIndexByHash_eq_some.1 hj)).2 hle
      simp only [hnone, hle, decide_false]
      exact ih hsame.2

variable (hr : HoldsTables s ours) (halts : s.altBlocks = ∅)
include hr halts

theorem Forked.hasBlock_iff {j : Nat}
    (hx : theirs.idAt j = some x) : s.hasBlock x = true ↔ j ≤ fork := by
  unfold ChainState.hasBlock
  rw [halts]
  simp only [AList.lookup_empty, Option.isSome_none, Bool.false_or]
  constructor
  · intro hsome
    obtain ⟨i,hi⟩ := Option.isSome_iff_exists.1 hsome
    obtain ⟨rfl,hle⟩ := h.le_fork hU ho ht (hr.blockIndexByHash_eq_some.1 hi) hx
    exact hle
  · intro hle
    rw [hr.blockIndexByHash_eq_some.2 (by rw [h.same j hle, hx])]
    rfl

theorem Forked.dropWhile {start count : Nat}
    (hids : ids.map some = (range' start count).map theirs.idAt) :
    (ids.dropWhile s.hasBlock).map some =
      ((range' start count).drop (fork + 1 - start)).map theirs.idAt := by
  induction count generalizing start ids with
  | zero =>
    cases map_eq_nil_iff.1 hids
    simp
  | succ count ih =>
    rw [range'_succ] at hids ⊢
    obtain ⟨x,ids,rfl,hsame⟩ := map_eq_cons_iff.1 hids
    have hknown := h.hasBlock_iff hU ho ht hr halts hsame.1.symm
    by_cases hle : start ≤ fork
    · rw [dropWhile_cons_of_pos (hknown.2 hle), ih hsame.2,
        show fork + 1 - start = (fork + 1 - (start+1)) + 1 by omega, drop_succ_cons]
    · rw [dropWhile_cons_of_neg (fun hyes => hle (hknown.1 hyes)),
        show fork + 1 - start = 0 by omega]
      simp [hsame.1, hsame.2]

end

theorem takeBatch_all (needed : List Hash) (batch : Nat) :
    takeBatch (fun _ => false) needed batch = (needed.take batch,needed.drop batch) := by
  induction needed generalizing batch with
  | nil => cases batch <;> rfl
  | cons hash rest ih =>
    cases batch with
    | zero => rfl
    | succ batch =>
      unfold takeBatch
      simp [ih]

namespace Node

variable {cx : Crypto}

/-- The requester's sparse chain goes to the server, which knows the requester as
connection `theirId`; the answer comes back on connection `id`. -/
def negotiate (requester server : Node cx) (id theirId : ConnId) : Except PeerError (Node cx) :=
  match requester.buildSparseChain with
  | .error _ => .error { reason := "no sparse chain" }
  | .ok sparse =>
    match handleRequestChain theirId (requestChain sparse) server with
    | .error e _ => .error e
    | .ok _ server =>
      match server.sent.getLast? with
      | some (_,.responseChainEntry payload) =>
        match handleResponseChainEntry id payload requester with
        | .error e _ => .error e
        | .ok _ requester => .ok requester
      | _ => .error { reason := "no answer" }

section

variable {requester server : Node cx} {U : Set RawBlock} {ours theirs : MainChain cx}
  {fork id theirId : Nat} {p p' : Peer} {ids : List Hash}

theorem handleRequestChain_forked (hU : UniqueIds cx U) (ho : Linked U ours) (ht : Linked U theirs)
    (hserver : HoldsTables server.chain theirs) (hfork : Forked ours theirs fork)
    (hlong : theirs.length < 2^32)
    (hids : ids.map some = (sparseChainIndices (ours.length - 1)).map ours.idAt)
    (hpeer : server.peers.lookup theirId = some p') (hroom : p'.sink.accepts = true) :
    ∃ hashes server', handleRequestChain theirId (requestChain ids) server = .ok ⟨⟩ server' ∧
      hashes.map some = (range' (matchIndex (ours.length - 1) fork)
        (min (theirs.length - 1) (matchIndex (ours.length - 1) fork + 9999) + 1 -
          matchIndex (ours.length - 1) fork)).map theirs.idAt ∧
      server'.sent = server.sent ++ [(theirId,.responseChainEntry
        (chainEntry (matchIndex (ours.length - 1) fork) theirs.length hashes))] := by
  obtain ⟨hfind,hle⟩ := find?_sparseChainIndices (ours.length - 1) fork
  have hahead := hfork.ahead
  have htip : server.chain.tip.getD 0 = theirs.length - 1 := by
    rw [hserver.tip, MainChain.tip_eq_ite, if_neg (by omega)]
    rfl
  have hlast : ids.getLast? = ours.idAt 0 := by
    have h := congrArg getLast? hids
    rw [getLast?_map, getLast?_map, sparseChainIndices_getLast?] at h
    obtain ⟨x,hx⟩ := ours.idAt_of_lt (Nat.lt_of_le_of_lt (Nat.zero_le _) hfork.below)
    cases hlast : ids.getLast? with
    | none => rw [hlast, Option.map_some, hx] at h; cases h
    | some y =>
      rw [hlast] at h
      simpa using h
  have hne : ids ≠ [] := by
    rintro rfl
    have := congrArg length hids
    rw [length_map, length_map, sparseChainIndices_eq] at this
    simp at this
  have hfew : ids.length ≤ maxHashes := by
    have := congrArg length hids
    rw [length_map, length_map] at this
    have h34 := sparseChainIndices_length (ours.length - 1)
    unfold maxHashes
    omega
  obtain ⟨genesis,hgenesis⟩ := theirs.idAt_of_lt (Nat.lt_of_le_of_lt (Nat.zero_le _) hahead)
  obtain ⟨hashes,hhashes,hmap⟩ := hserver.chainHashes_eq
    (range' (matchIndex (ours.length - 1) fork)
      (min (theirs.length - 1) (matchIndex (ours.length - 1) fork + 9999) + 1 -
        matchIndex (ours.length - 1) fork)) fun i hi => by
      have := mem_range'_1.1 hi
      omega
  have hrun : Ensures (handleRequestChain theirId (requestChain ids)) server
      (fun _ server' => server'.sent = server.sent ++ [(theirId,.responseChainEntry
        (chainEntry (matchIndex (ours.length - 1) fork) theirs.length hashes))])
      (fun _ _ => False) := by
    unfold handleRequestChain
    rw [parseRequestChain_requestChain hne hfew]
    refine ensures_readOr (by intro h; cases h) fun ids' hids' => Ensures.get_bind ?_
    cases hids'
    rw [hserver.chainHash_eq hgenesis]
    refine Ensures.pure_bind ?_
    rw [if_neg (by rw [hlast, hfork.same 0 (Nat.zero_le _), hgenesis]; simp),
      hfork.findSome? hU ho ht hserver hids, hfind]
    refine Ensures.pure_bind ?_
    have hend : min (server.chain.tip.getD 0) (min (matchIndex (ours.length - 1) fork +
        (blocksIdsSynchronizingDefaultCount - 1)) (2^32 - 1)) =
        min (theirs.length - 1) (matchIndex (ours.length - 1) fork + 9999) := by
      rw [htip]
      unfold blocksIdsSynchronizingDefaultCount
      omega
    dsimp only
    rw [hend, hhashes]
    refine Ensures.pure_bind (Ensures.of_modify ?_)
    have htotal : server.chain.tip.getD 0 + 1 = theirs.length := by omega
    rw [htotal, post_eq hpeer hroom]
  obtain ⟨_,server',hok,hsent⟩ := hrun.exists_ok
  exact ⟨hashes,server',hok,hmap,hsent⟩

section

variable {n : Node cx} (hpeer : n.peers.lookup id = some p) (hroom : p.sink.accepts = true)
include hpeer hroom

theorem requestMissingObjects_needed (hneeded : p.ctx.neededObjects ≠ []) :
    ∃ batch left, batch ++ left = p.ctx.neededObjects ∧ batch ≠ [] ∧
      (n.requestMissingObjects id false).sent = n.sent ++ [(id,.requestGetObjects batch)] ∧
      ((n.requestMissingObjects id false).ctx? id).map PeerCtx.neededObjects = some left := by
  have hbatch := p.ctx.batchSize_pos n.cfg.tuning
  have htake : p.ctx.neededObjects.take (p.ctx.batchSize n.cfg.tuning) ≠ [] := by
    rw [Ne, take_eq_nil_iff]
    rintro (h | h)
    · omega
    · exact hneeded h
  refine ⟨_,_,take_append_drop (p.ctx.batchSize n.cfg.tuning) p.ctx.neededObjects,htake,?_,?_⟩
  all_goals
    unfold requestMissingObjects
    rw [ctx?_of_lookup hpeer]
    dsimp only
    rw [if_pos hneeded]
    simp only [Bool.false_and, takeBatch_all, if_neg htake]
    rw [post_eq (lookup_updateCtx (lookup_updateCtx hpeer)) hroom]
  · simp
  · change (Node.ctx? (Node.updateCtx _ id _) id).map _ = _
    rw [ctx?_updateCtx_self, ctx?_updateCtx_self, ctx?_of_lookup hpeer]
    rfl

end

theorem handleResponseChainEntry_forked (hU : UniqueIds cx U) (ho : Linked U ours)
    (ht : Linked U theirs) (hrequester : HoldsTables requester.chain ours)
    (halts : requester.chain.altBlocks = ∅) (hfork : Forked ours theirs fork)
    (hlong : theirs.length < 2^32) {start : Nat} (hstart : start ≤ fork) {hashes : List Hash}
    (hhashes : hashes.map some = (range' start
      (min (theirs.length - 1) (start + 9999) + 1 - start)).map theirs.idAt)
    (hpeer : requester.peers.lookup id = some p) (hroom : p.sink.accepts = true)
    (hasked : p.ctx.chainRequestDeadline.isSome) :
    ∃ requester', handleResponseChainEntry id (chainEntry start theirs.length hashes) requester =
        .ok ⟨⟩ requester' ∧
      (fork - start < 9999 → ∃ batch left, (batch ++ left).map some = (range' (fork+1)
          (min (theirs.length - 1) (start + 9999) - fork)).map theirs.idAt ∧ batch ≠ [] ∧
        requester'.sent = requester.sent ++ [(id,.requestGetObjects batch)] ∧
        (requester'.ctx? id).map PeerCtx.neededObjects = some left) := by
  have hahead := hfork.ahead
  have hcount : hashes.length = min (theirs.length - 1) (start + 9999) + 1 - start := by
    have h := congrArg length hhashes
    simpa using h
  have hne : hashes ≠ [] := by
    rintro rfl
    rw [length_nil] at hcount
    omega
  have hparse : parseChainEntry (chainEntry start theirs.length hashes) =
      .ok ⟨start,theirs.length,hashes⟩ :=
    parseChainEntry_chainEntry hne (by unfold maxHashes; omega) (by omega) hlong
  have hneeded := hfork.dropWhile hU ho ht hrequester halts hhashes
  obtain ⟨x,hashes',rfl⟩ := exists_cons_of_ne_nil hne
  have hx : theirs.idAt start = some x := by
    have h := congrArg head? hhashes
    rw [show min (theirs.length - 1) (start + 9999) + 1 - start =
      (min (theirs.length - 1) (start + 9999) - start) + 1 by omega, range'_succ] at h
    simpa using h.symm
  have hfirst := (hfork.hasBlock_iff hU ho ht hrequester halts hx).2 hstart
  have hrun : Ensures (handleResponseChainEntry id (chainEntry start theirs.length (x :: hashes')))
      requester (fun _ requester' =>
        fork - start < 9999 → ∃ batch left, (batch ++ left).map some = (range' (fork+1)
            (min (theirs.length - 1) (start + 9999) - fork)).map theirs.idAt ∧ batch ≠ [] ∧
          requester'.sent = requester.sent ++ [(id,.requestGetObjects batch)] ∧
          (requester'.ctx? id).map PeerCtx.neededObjects = some left) (fun _ _ => False) := by
    unfold handleResponseChainEntry
    rw [hparse]
    refine ensures_peerCtx (by rw [ctx?_of_lookup hpeer]; intro h; cases h) fun c hc =>
      Ensures.modify_bind ?_
    rw [ctx?_of_lookup hpeer] at hc
    cases hc
    rw [if_neg (fun hnone => by rw [hnone] at hasked; cases hasked)]
    refine Ensures.pure_bind (Ensures.get_bind ?_)
    rw [if_neg (by simp [hfirst])]
    refine Ensures.modify_bind ?_
    rw [if_neg (by simp only [length_cons] at hcount ⊢; omega)]
    refine Ensures.modify_bind (Ensures.of_modify ?_)
    simp only [updateCtx_chain]
    generalize hn : Node.recalculateObservedHeight _ = n
    obtain ⟨c,hlookup,hc,hsent⟩ : ∃ c, n.peers.lookup id = some { p with ctx := c } ∧
        c.neededObjects = (x :: hashes').dropWhile requester.chain.hasBlock ∧
        n.sent = requester.sent := by
      subst hn
      have hpeer1 := lookup_updateCtx (f := fun c => { c with chainRequestDeadline := none }) hpeer
      have hpeer2 := lookup_updateCtx (f := fun c => { c with
        remoteHeight := theirs.length
        lastResponseHeight := min (start + (x :: hashes').length) (2^32 - 1) - 1 }) hpeer1
      have hpeer3 := lookup_updateCtx (f := fun c => { c with
        neededObjects := (x :: hashes').dropWhile requester.chain.hasBlock }) hpeer2
      refine ⟨_,hpeer3,rfl,?_⟩
      change (Node.updateCtx _ id _).sent = _
      rw [updateCtx_sent, updateCtx_sent, updateCtx_sent]
    rw [← hc] at hneeded
    intro hnear
    have hsome : c.neededObjects ≠ [] := by
      intro hnil
      rw [hnil] at hneeded
      have h := congrArg length hneeded
      simp only [map_nil, length_nil, length_map, length_drop, length_range'] at h
      omega
    obtain ⟨batch,left,happ,hbatch,hsent',hleft⟩ :=
      requestMissingObjects_needed (p := { p with ctx := c }) hlookup hroom hsome
    refine ⟨batch,left,?_,hbatch,by rw [hsent', hsent],hleft⟩
    rw [happ, hneeded, drop_range']
    congr 2 <;> omega
  obtain ⟨_,requester',hok,hresult⟩ := hrun.exists_ok
  exact ⟨requester',hok,hresult⟩

/-- Chain negotiation between two nodes that were offered any blocks. No handler fails. When
the match lies less than 9999 blocks below the fork, which it does whenever the fork lies
less than 9999 blocks below the requester's tip, the requester asks for a first batch and
keeps the rest of a run of the server's ids that starts right above the fork. -/
theorem negotiate_progress {raws : List RawBlock} (hU : UniqueIds cx (blocksOf cx raws))
    {cfg cfg' : Config} {checkpoints checkpoints' : Checkpoints} {clock clock' : Nat}
    {s₀ s₀' : ChainState} (hopen : ChainState.openOrGenesis cx cfg checkpoints clock = .ok ⟨⟩ s₀)
    (hopen' : ChainState.openOrGenesis cx cfg' checkpoints' clock' = .ok ⟨⟩ s₀')
    {offers offers' : List (Nat × RawBlock)} (hoffers : ∀ offer ∈ offers, offer.2 ∈ raws)
    (hoffers' : ∀ offer ∈ offers', offer.2 ∈ raws)
    (hchain : requester.chain = runBlocks cx offers s₀)
    (hchain' : server.chain = runBlocks cx offers' s₀')
    (halts : requester.chain.altBlocks = ∅) {tip tip' : Nat}
    (htip : requester.chain.tip = some tip) (htip' : server.chain.tip = some tip')
    (hu32 : tip < 2^32) (hu32' : tip' + 1 < 2^32) (hbelow : fork ≤ tip) (hahead : fork < tip')
    (hsame : ∀ i, i ≤ fork → requester.chain.hashAt i = server.chain.hashAt i)
    (hapart : requester.chain.hashAt (fork+1) ≠ server.chain.hashAt (fork+1))
    (hpeer : requester.peers.lookup id = some p) (hroom : p.sink.accepts = true)
    (hasked : p.ctx.chainRequestDeadline.isSome)
    (hpeer' : server.peers.lookup theirId = some p') (hroom' : p'.sink.accepts = true) :
    (tip - fork < 9999 → fork - matchIndex tip fork < 9999) ∧
    ∃ requester', negotiate requester server id theirId = .ok requester' ∧
      (fork - matchIndex tip fork < 9999 → ∃ batch left,
        (batch ++ left).map some = (List.range' (fork+1)
          (min tip' (matchIndex tip fork + 9999) - fork)).map server.chain.hashAt ∧ batch ≠ [] ∧
        requester'.sent = requester.sent ++ [(id,.requestGetObjects batch)] ∧
        (requester'.ctx? id).map PeerCtx.neededObjects = some left) := by
  refine ⟨fun h => (matchIndex_near hbelow hu32).trans_lt h,?_⟩
  obtain ⟨ours,hkept⟩ := runBlocks_sound hopen hU hoffers
  obtain ⟨theirs,hkept'⟩ := runBlocks_sound hopen' hU hoffers'
  rw [← hchain] at hkept
  rw [← hchain'] at hkept'
  have hr := hkept.sound.holds.toHoldsTables
  have hs := hkept'.sound.holds.toHoldsTables
  have hlen := MainChain.tip_eq_some_iff.1 (hr.tip ▸ htip)
  have hlen' := MainChain.tip_eq_some_iff.1 (hs.tip ▸ htip')
  have hfork : Forked ours theirs fork := by
    refine ⟨by omega,by omega,fun i hi => ?_,?_⟩
    · rw [← hr.hashAt_eq, ← hs.hashAt_eq]
      exact hsame i hi
    · rw [← hr.hashAt_eq, ← hs.hashAt_eq]
      exact hapart
  have hsparse : requester.chain.tip.getD 0 = ours.length - 1 := by
    rw [htip, hlen]
    rfl
  obtain ⟨ids,hids,hmap⟩ := hr.chainHashes_eq (sparseChainIndices (ours.length - 1))
    fun i hi => by
      have := le_of_mem_sparseChainIndices hi
      omega
  have hlinked := hkept.sound.linked
  have hlinked' := hkept'.sound.linked
  obtain ⟨hashes,server',hserved,hhashes,hsent⟩ :=
    handleRequestChain_forked hU hlinked hlinked' hs hfork (by omega) hmap hpeer' hroom'
  obtain ⟨requester',hok,hnear⟩ := handleResponseChainEntry_forked hU hlinked hlinked' hr halts
    hfork (by omega) (find?_sparseChainIndices (ours.length - 1) fork).2 hhashes hpeer hroom hasked
  have hexchange : negotiate requester server id theirId = .ok requester' := by
    unfold negotiate buildSparseChain
    rw [hsparse, hids]
    dsimp only
    rw [hserved]
    dsimp only
    rw [hsent, List.getLast?_concat]
    dsimp only
    rw [hok]
  have htipEq : ours.length - 1 = tip := by omega
  have htipEq' : theirs.length - 1 = tip' := by omega
  rw [htipEq, htipEq'] at hnear
  have hhash : server.chain.hashAt = theirs.idAt := funext fun i => hs.hashAt_eq i
  rw [hhash]
  exact ⟨requester',hexchange,hnear⟩

end

def sampleRequester : Node sampleCrypto :=
  (Node.new (sampleNode defaultConfig .none 0) (.new sampleCrypto {}) {}).setPeer 1
    { ctx := { PeerCtx.new false {} 0 with chainRequestDeadline := some 30000 } }

def sampleServer : Node sampleCrypto :=
  (Node.new (runBlocks sampleCrypto sampleMain (sampleNode defaultConfig .none 0))
    (.new sampleCrypto {}) {}).setPeer 1 { ctx := .new true {} 0 }

theorem sampleRequester_peer : sampleRequester.peers.lookup 1 =
    some { ctx := { PeerCtx.new false {} 0 with chainRequestDeadline := some 30000 } } := rfl

theorem sampleServer_peer : sampleServer.peers.lookup 1 = some { ctx := .new true {} 0 } := rfl

/-- The requester lacks all but the genesis block and is left with no id to ask for: the
batch it asks for takes them all. -/
theorem negotiate_leaves_nothing :
    sampleRequester.chain.altBlocks.entries = [] ∧
    sampleRequester.chain.hashAt 0 = sampleServer.chain.hashAt 0 ∧
    sampleRequester.chain.hashAt 1 = none ∧ sampleServer.chain.tip = some 4 ∧
    ((negotiate sampleRequester sampleServer 1 1).toOption.bind fun n => n.ctx? 1).map
      PeerCtx.neededObjects = some [] := by
  decide +kernel

theorem negotiate_progress_sample :
    ∃ requester', negotiate sampleRequester sampleServer 1 1 = .ok requester' ∧
      ∃ batch left, (batch ++ left).map some = (List.range' 1 4).map sampleServer.chain.hashAt ∧
        batch ≠ [] ∧ requester'.sent = [(1,.requestGetObjects batch)] ∧
        (requester'.ctx? 1).map PeerCtx.neededObjects = some left := by
  have hids : UniqueIds sampleCrypto (blocksOf sampleCrypto (sampleMain.map Prod.snd)) := by
    decide +kernel
  have hnone : ∀ offer ∈ ([] : List (Nat × RawBlock)), offer.2 ∈ sampleMain.map Prod.snd := by simp
  have hmain : ∀ offer ∈ sampleMain, offer.2 ∈ sampleMain.map Prod.snd :=
    fun offer h => List.mem_map_of_mem h
  have hchain : sampleRequester.chain =
      runBlocks sampleCrypto [] (sampleNode defaultConfig .none 0) := by
    rw [sampleRequester, setPeer_chain, new_chain, runBlocks_nil]
  have hchain' : sampleServer.chain =
      runBlocks sampleCrypto sampleMain (sampleNode defaultConfig .none 0) := by
    rw [sampleServer, setPeer_chain, new_chain]
  have halts : sampleRequester.chain.altBlocks = ∅ := AList.ext (by decide +kernel)
  have htip : sampleRequester.chain.tip = some 0 := by decide +kernel
  have htip' : sampleServer.chain.tip = some 4 := by decide +kernel
  have hsame : ∀ i, i ≤ 0 → sampleRequester.chain.hashAt i = sampleServer.chain.hashAt i := by
    intro i hi
    cases Nat.le_zero.1 hi
    decide +kernel
  have hapart : sampleRequester.chain.hashAt (0+1) ≠ sampleServer.chain.hashAt (0+1) := by
    decide +kernel
  obtain ⟨hnear,requester',hok,hbatch⟩ := negotiate_progress hids
    (sampleNode_open defaultConfig .none 0) (sampleNode_open defaultConfig .none 0) hnone hmain
    hchain hchain' halts htip htip' (by decide) (by decide) (by decide) (by decide) hsame
    hapart sampleRequester_peer rfl rfl sampleServer_peer rfl
  exact ⟨requester',hok,hbatch (hnear (by decide))⟩

end Node

end Wrkz
