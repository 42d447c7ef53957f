import Wrkz.Node.PeerManager

/-!
The outbound connections are spread over the network: of the addresses chosen to dial, those
that are not seeds are of different groups, none of them that of an outbound connection.
-/

set_option autoImplicit false

namespace Wrkz

open Library List

namespace PeerManager

/-- The addresses picked so far with the groups no address may be picked from any more. -/
structure Picked (want : Nat) (held : List NetGroup)
    (picked : List SocketAddr × List NetGroup) : Prop where
  count : picked.1.length ≤ want
  groups : (picked.1.map fun a => netGroup a.ip).Nodup
  fresh : ∀ a ∈ picked.1, netGroup a.ip ∉ held
  marked : ∀ a ∈ picked.1, netGroup a.ip ∈ picked.2
  held : ∀ g ∈ held, g ∈ picked.2

theorem picked_nil (want : Nat) (held : List NetGroup) : Picked want held ([],held) :=
  ⟨Nat.zero_le _,nodup_nil,by simp,by simp,fun _ h => h⟩

variable {want : Nat} {out : List SocketAddr}

theorem Picked.push {held groups : List NetGroup}
    {a : SocketAddr} (h : Picked want held (out,groups)) (hroom : out.length < want)
    (hgroup : netGroup a.ip ∉ groups) : Picked want held (out ++ [a],netGroup a.ip :: groups) where
  count := by
    simpa using hroom
  groups := by
    have hnew : netGroup a.ip ∉ out.map fun a => netGroup a.ip := by
      intro hmem
      obtain ⟨b,hb,heq⟩ := mem_map.1 hmem
      exact hgroup (heq ▸ h.marked b hb)
    simpa [nodup_append] using ⟨h.groups,fun b hb heq => hnew (heq ▸ mem_map_of_mem hb)⟩
  fresh := by
    intro b hb
    rcases mem_append.1 hb with hb | hb
    · exact h.fresh b hb
    · rw [mem_singleton.1 hb]
      exact fun hheld => hgroup (h.held _ hheld)
  marked := by
    intro b hb
    rcases mem_append.1 hb with hb | hb
    · exact mem_cons_of_mem _ (h.marked b hb)
    · rw [mem_singleton.1 hb]
      exact mem_cons_self
  held := fun g hg => mem_cons_of_mem _ (h.held g hg)

theorem Picked.takeFrom {want limit : Nat} {held : List NetGroup} (hlimit : limit ≤ want)
    (src : List SocketAddr) {picked : List SocketAddr × List NetGroup}
    (h : Picked want held picked) : Picked want held (takeFrom limit src picked) := by
  induction src generalizing picked with
  | nil => exact h
  | cons a src ih =>
    obtain ⟨out,groups⟩ := picked
    unfold PeerManager.takeFrom
    split
    · exact h
    split
    · exact ih h
    · next hfull hseen =>
      simp only [Bool.or_eq_true, contains_iff_mem, not_or] at hseen
      exact ih (h.push (by omega) hseen.2)

theorem picked_pickFrom (want : Nat) (white gray : List SocketAddr) (held : List NetGroup) :
    ∃ groups, Picked want held (pickFrom want white gray held,groups) :=
  ⟨_,(((picked_nil want held).takeFrom (Nat.min_le_right _ _) white).takeFrom le_rfl gray).takeFrom
    le_rfl white⟩

theorem takeSeeds_spec (src : List SocketAddr) (hcount : out.length ≤ want) (hnodup : out.Nodup) :
    ∃ more, takeSeeds want src out = out ++ more ∧ (out ++ more).Nodup ∧
      (out ++ more).length ≤ want ∧ ∀ a ∈ more, a ∈ src := by
  induction src generalizing out with
  | nil => exact ⟨[],by simp [takeSeeds],by simpa using hnodup,by simpa using hcount,by simp⟩
  | cons a src ih =>
    unfold takeSeeds
    split
    · exact ⟨[],by simp,by simpa using hnodup,by simpa using hcount,by simp⟩
    split
    · obtain ⟨more,heq,hnd,hlen,hmem⟩ := ih hcount hnodup
      exact ⟨more,heq,hnd,hlen,fun b hb => mem_cons_of_mem _ (hmem b hb)⟩
    · next hfull hseen =>
      have hpush : (out ++ [a]).Nodup := by
        simp only [contains_iff_mem] at hseen
        simpa [nodup_append] using ⟨hnodup,fun b hb heq => hseen (heq ▸ hb)⟩
      obtain ⟨more,heq,hnd,hlen,hmem⟩ := ih (by simp; omega) hpush
      rw [append_assoc] at heq hnd hlen
      refine ⟨a :: more,heq,hnd,hlen,fun b hb => ?_⟩
      rcases mem_cons.1 hb with rfl | hb
      · exact mem_cons_self
      · exact mem_cons_of_mem _ (hmem b hb)

/-- What may be dialled beside the outbound connections there are. -/
structure Diverse (seeds : List SocketAddr) (want : Nat) (outbound out : List SocketAddr) :
    Prop where
  count : out.length ≤ want
  distinct : out.Nodup
  groups : ((out.filter fun a => a ∉ seeds).map fun a => netGroup a.ip).Nodup
  fresh : ∀ a ∈ out, a ∉ seeds → ∀ b ∈ outbound, netGroup a.ip ≠ netGroup b.ip

def candidatesIn (want : Nat) (outbound white gray seeds : List SocketAddr) : List SocketAddr :=
  let out := pickFrom want white gray (outbound.map fun a => netGroup a.ip)
  if out.length < want then takeSeeds want seeds out else out

theorem Picked.diverse {outbound out more : List SocketAddr} {groups : List NetGroup}
    {seeds : List SocketAddr} (h : Picked want (outbound.map fun a => netGroup a.ip) (out,groups))
    (hnodup : (out ++ more).Nodup) (hlen : (out ++ more).length ≤ want)
    (hmore : ∀ a ∈ more, a ∈ seeds) : Diverse seeds want outbound (out ++ more) where
  count := hlen
  distinct := hnodup
  groups := by
    have hnone : more.filter (fun a => decide (a ∉ seeds)) = [] :=
      filter_eq_nil_iff.2 fun a ha => by simpa using hmore a ha
    rw [filter_append, hnone, append_nil]
    exact h.groups.sublist (filter_sublist.map _)
  fresh := by
    intro a ha hseed b hb heq
    rcases mem_append.1 ha with ha | ha
    · exact h.fresh a ha (heq ▸ mem_map_of_mem hb)
    · exact hseed (hmore a ha)

theorem diverse_candidatesIn (want : Nat) (outbound white gray seeds : List SocketAddr) :
    Diverse seeds want outbound (candidatesIn want outbound white gray seeds) := by
  obtain ⟨groups,h⟩ := picked_pickFrom want white gray (outbound.map fun a => netGroup a.ip)
  have hnodup := List.Nodup.of_map _ h.groups
  unfold candidatesIn
  dsimp only
  split
  · obtain ⟨more,heq,hnd,hlen,hmem⟩ := takeSeeds_spec seeds h.count hnodup
    rw [heq]
    exact h.diverse hnd hlen hmem
  · rw [← append_nil (pickFrom _ _ _ _)]
    exact h.diverse (by simpa using hnodup) (by simpa using h.count) (by simp)

theorem Diverse.mono {outbound out seeds seeds' : List SocketAddr}
    (h : Diverse seeds want outbound out) (hsub : ∀ a ∈ seeds, a ∈ seeds') :
    Diverse seeds' want outbound out where
  count := h.count
  distinct := h.distinct
  groups := by
    refine h.groups.sublist (List.Sublist.map _ (monotone_filter_right _ fun a ha => ?_))
    simp only [decide_eq_true_eq] at ha ⊢
    exact fun hs => ha (hsub a hs)
  fresh := fun a ha hseed => h.fresh a ha fun hs => hseed (hsub a hs)

end PeerManager

open PeerManager

/-- Whatever the lists hold and however they are shuffled, and for the shuffles of the code's
own generator from any seed. -/
theorem outbound_diversity (m : PeerManager) (want : Nat) (busy outbound : List SocketAddr) :
    (∀ now (white gray seeds : List SocketAddr),
      white.Perm (m.whiteAddresses.filter fun a => m.dialable now a busy) →
      gray.Perm (m.grayAddresses.filter fun a => m.dialable now a busy) →
      seeds.Perm (m.seeds.filter fun a => m.dialable now a busy) →
      Diverse m.seeds want outbound (candidatesIn want outbound white gray seeds)) ∧
    ∀ rng now, Diverse m.seeds want outbound (m.dialCandidatesFor rng now want busy outbound) := by
  have hseeds {p : SocketAddr → Bool} {seeds : List SocketAddr}
      (hperm : seeds.Perm (m.seeds.filter p)) : ∀ a ∈ seeds, a ∈ m.seeds := fun a ha =>
    List.mem_of_mem_filter (hperm.subset ha)
  constructor
  · intro now white gray seeds _ _ hs
    exact (diverse_candidatesIn want outbound white gray seeds).mono (hseeds hs)
  · intro rng now
    unfold dialCandidatesFor
    split
    · exact ⟨Nat.zero_le _,List.nodup_nil,by simp,by simp⟩
    · exact (diverse_candidatesIn want outbound _ _ _).mono (hseeds (shuffle_perm _ _ _))

end Wrkz
