import Wrkz.Node.Dialling

/-!
What the peer lists keep to in every state: no address twice, the lengths of the lists, and
the number of gray entries of one network group.
-/

set_option autoImplicit false

namespace Wrkz

open Library List

namespace ListEntry

variable {n : Nat}

def address (e : ListEntry n) : ByteVec n × Nat := (e.ip,e.port)

theorem sameAddress_iff {a b : ListEntry n} : a.sameAddress b = true ↔ a.address = b.address := by
  simp [sameAddress, address]

theorem any_sameAddress_iff {e : ListEntry n} {l : List (ListEntry n)} :
    l.any (·.sameAddress e) = true ↔ e.address ∈ l.map address := by
  simp only [any_eq_true, sameAddress_iff, mem_map]

theorem upsert_addresses (e : ListEntry n) (l : List (ListEntry n)) :
    (e.upsert l).map address =
      if e.address ∈ l.map address then l.map address else l.map address ++ [e.address] := by
  induction l with
  | nil => simp [upsert]
  | cons f l ih =>
    unfold upsert
    by_cases hf : f.sameAddress e = true
    · have heq := sameAddress_iff.1 hf
      simp [hf, heq]
    · have hne : e.address ≠ f.address := fun h => hf (sameAddress_iff.2 h.symm)
      rw [if_neg hf, map_cons, ih, map_cons]
      by_cases hl : e.address ∈ l.map address
      · rw [if_pos hl, if_pos (mem_cons_of_mem _ hl)]
      · rw [if_neg hl, if_neg (by simp [hne, hl])]
        rfl

theorem trim_subperm (l : List (ListEntry n)) (max : Nat) : (trim l max).Subperm l := by
  unfold trim
  split
  · exact List.Subperm.refl l
  · exact (take_sublist _ _).subperm.trans (mergeSort_perm _ _).subperm

theorem addresses_subperm {kept l : List (ListEntry n)} (h : kept.Subperm l) :
    (kept.map address).Subperm (l.map address) := by
  obtain ⟨mid,hperm,hsub⟩ := h
  exact ⟨mid.map address,hperm.map address,hsub.map address⟩

theorem nodup_addresses {kept l : List (ListEntry n)} (h : kept.Subperm l)
    (hl : (l.map address).Nodup) : (kept.map address).Nodup := by
  obtain ⟨mid,hperm,hsub⟩ := addresses_subperm h
  exact hperm.nodup_iff.1 (hl.sublist hsub)

theorem trim_length_le (l : List (ListEntry n)) (max : Nat) : (trim l max).length ≤ max := by
  unfold trim
  split
  · assumption
  · exact length_take_le _ _

end ListEntry

open ListEntry

section Family

variable {n : Nat} {family : ByteVec n → IpAddr} {white gray : List (ListEntry n)}

def inGroup (family : ByteVec n → IpAddr) (l : List (ListEntry n)) (g : NetGroup) : Nat :=
  groupCounts (l.map fun e => family e.ip) g

structure Tidy (family : ByteVec n → IpAddr) (white gray : List (ListEntry n)) : Prop where
  distinct : ((white ++ gray).map address).Nodup
  whiteLimit : white.length ≤ p2pLocalWhitePeerlistLimit
  grayLimit : gray.length ≤ p2pLocalGrayPeerlistLimit
  groups : ∀ g, inGroup family gray g ≤ grayPerGroupLimit

theorem tidy_nil : Tidy family [] [] :=
  ⟨nodup_nil,Nat.zero_le _,Nat.zero_le _,fun _ => Nat.zero_le _⟩

theorem inGroup_eq (l : List (ListEntry n)) (g : NetGroup) :
    inGroup family l g = (l.map address).countP fun a => netGroup (family a.1) = g := by
  simp only [inGroup, groupCounts, countP_map]
  rfl

theorem inGroup_le_of_subperm {kept : List (ListEntry n)} (h : kept.Subperm gray) (g : NetGroup) :
    inGroup family kept g ≤ inGroup family gray g := by
  rw [inGroup_eq, inGroup_eq]
  exact (addresses_subperm h).countP_le _

theorem Tidy.subperm (h : Tidy family white gray) {white' gray' : List (ListEntry n)}
    (hwhite : white'.Subperm white) (hgray : gray'.Subperm gray) : Tidy family white' gray' where
  distinct := nodup_addresses (hwhite.append hgray) h.distinct
  whiteLimit := hwhite.length_le.trans h.whiteLimit
  grayLimit := hgray.length_le.trans h.grayLimit
  groups := fun g => (inGroup_le_of_subperm hgray g).trans (h.groups g)

theorem distinct_promote (h : ((white ++ gray).map address).Nodup) (e : ListEntry n) :
    ((e.upsert white ++ gray.filter fun f => !f.sameAddress e).map address).Nodup := by
  have hsub : ((gray.filter fun f => !f.sameAddress e).map address).Sublist (gray.map address) :=
    filter_sublist.map address
  have hgone : e.address ∉ (gray.filter fun f => !f.sameAddress e).map address := by
    intro hmem
    obtain ⟨f,hf,heq⟩ := mem_map.1 hmem
    have hnot := (mem_filter.1 hf).2
    rw [sameAddress_iff.2 heq] at hnot
    cases hnot
  rw [map_append] at h ⊢
  rw [upsert_addresses]
  split
  · exact h.sublist ((List.Sublist.refl _).append hsub)
  · next hnew =>
    obtain ⟨hw,hg,hdisj⟩ := nodup_append.1 h
    rw [append_assoc, singleton_append, nodup_middle]
    refine nodup_cons.2 ⟨?_,h.sublist ((List.Sublist.refl _).append hsub)⟩
    simp only [mem_append, not_or]
    exact ⟨hnew,hgone⟩

theorem upsert_length_of_mem {e : ListEntry n} {l : List (ListEntry n)}
    (h : l.any (·.sameAddress e) = true) : (e.upsert l).length = l.length := by
  have hmap := congrArg length (upsert_addresses e l)
  rwa [if_pos (any_sameAddress_iff.1 h), length_map, length_map] at hmap

theorem Tidy.promote (h : Tidy family white gray) (e : ListEntry n) :
    Tidy family
      (if white.any (·.sameAddress e) then e.upsert white
        else trim (e.upsert white) p2pLocalWhitePeerlistLimit)
      (gray.filter fun f => !f.sameAddress e) := by
  have hgray : (gray.filter fun f => !f.sameAddress e).Subperm gray :=
    filter_sublist.subperm
  have hdistinct := distinct_promote h.distinct e
  split
  · next hknown =>
    exact ⟨hdistinct,(upsert_length_of_mem hknown).le.trans h.whiteLimit,
      hgray.length_le.trans h.grayLimit,fun g => (inGroup_le_of_subperm hgray g).trans (h.groups g)⟩
  · have hboth := (trim_subperm (e.upsert white) p2pLocalWhitePeerlistLimit).append
      (List.Subperm.refl (gray.filter fun f => !f.sameAddress e))
    exact ⟨nodup_addresses hboth hdistinct,trim_length_le _ _,
      hgray.length_le.trans h.grayLimit,fun g => (inGroup_le_of_subperm hgray g).trans (h.groups g)⟩

end Family

section Merge

variable {n : Nat} {family : ByteVec n → IpAddr} {allowLocal : Bool}
  {white gray : List (ListEntry n)}

theorem grayWith_addresses (family : ByteVec n → IpAddr) (allowLocal : Bool)
    (white gray : List (ListEntry n)) (e : ListEntry n) :
    (grayWith family allowLocal white gray e).map address = gray.map address ∨
      ((grayWith family allowLocal white gray e).map address =
        gray.map address ++ [e.address] ∧ e.address ∉ white.map address ∧
        e.address ∉ gray.map address) := by
  unfold grayWith
  split
  · exact .inl rfl
  split
  · exact .inl rfl
  · next hwhite =>
    rw [upsert_addresses]
    split
    · exact .inl rfl
    · next hgray => exact .inr ⟨rfl,fun h => hwhite (any_sameAddress_iff.2 h),hgray⟩

theorem distinct_grayWith (h : ((white ++ gray).map address).Nodup) (e : ListEntry n) :
    ((white ++ grayWith family allowLocal white gray e).map address).Nodup := by
  rw [map_append] at h ⊢
  rcases grayWith_addresses family allowLocal white gray e with heq | ⟨heq,hw,hg⟩
  · rwa [heq]
  · rw [heq, ← append_assoc]
    refine nodup_append.2 ⟨h,nodup_singleton _,?_⟩
    intro a ha b hb
    rw [mem_singleton.1 hb]
    rintro rfl
    rcases mem_append.1 ha with ha | ha
    · exact hw ha
    · exact hg ha

/-- What the loop of a merge keeps to: the counts are at least those of the list. -/
structure Merging (family : ByteVec n → IpAddr) (white gray : List (ListEntry n))
    (perGroup : NetGroup → Nat) : Prop where
  distinct : ((white ++ gray).map address).Nodup
  counted : ∀ g, inGroup family gray g ≤ perGroup g
  groups : ∀ g, inGroup family gray g ≤ grayPerGroupLimit

variable {perGroup : NetGroup → Nat}

theorem Merging.update (h : Merging family white gray perGroup) {e : ListEntry n}
    (hknown : gray.any (·.sameAddress e) = true) :
    Merging family white (grayWith family allowLocal white gray e) perGroup := by
  have hsame : (grayWith family allowLocal white gray e).map address = gray.map address := by
    rcases grayWith_addresses family allowLocal white gray e with heq | ⟨-,-,hnew⟩
    · exact heq
    · exact absurd (any_sameAddress_iff.1 hknown) hnew
  refine ⟨distinct_grayWith h.distinct e,?_,?_⟩
  · intro g
    rw [inGroup_eq, hsame, ← inGroup_eq]
    exact h.counted g
  · intro g
    rw [inGroup_eq, hsame, ← inGroup_eq]
    exact h.groups g

theorem Merging.insert (h : Merging family white gray perGroup) {e : ListEntry n}
    (hroom : perGroup (netGroup (family e.ip)) < grayPerGroupLimit) :
    Merging family white (grayWith family allowLocal white gray e)
      (Function.update perGroup (netGroup (family e.ip))
        (perGroup (netGroup (family e.ip)) + 1)) := by
  have hmore (g : NetGroup) : inGroup family (grayWith family allowLocal white gray e) g ≤
      inGroup family gray g + if netGroup (family e.ip) = g then 1 else 0 := by
    rw [inGroup_eq, inGroup_eq]
    rcases grayWith_addresses family allowLocal white gray e with heq | ⟨heq,-,-⟩
    · rw [heq]
      exact Nat.le_add_right _ _
    · rw [heq, countP_append, countP_singleton]
      by_cases hsame : netGroup (family e.ip) = g <;> simp [address, hsame]
  refine ⟨distinct_grayWith h.distinct e,?_,?_⟩
  · intro g
    have hg := hmore g
    have hcounted := h.counted g
    by_cases heq : netGroup (family e.ip) = g
    · subst heq
      rw [Function.update_self]
      simp only [if_true] at hg
      omega
    · rw [Function.update_of_ne (Ne.symm heq)]
      simp only [if_neg heq] at hg
      omega
  · intro g
    have hg := hmore g
    have hgroups := h.groups g
    by_cases heq : netGroup (family e.ip) = g
    · subst heq
      have hcounted := h.counted (netGroup (family e.ip))
      simp only [if_true] at hg
      omega
    · simp only [if_neg heq] at hg
      omega

theorem Merging.mergeLoop (allowLocal : Bool) (entries : List (ListEntry n))
    (h : Merging family white gray perGroup) :
    ∃ counts, Merging family white (mergeLoop family allowLocal white gray perGroup entries)
      counts := by
  induction entries generalizing gray perGroup with
  | nil => exact ⟨perGroup,h⟩
  | cons e rest ih =>
    simp only [Wrkz.mergeLoop]
    split
    · next hknown => exact ih (h.update hknown)
    split
    · exact ih h
    · next hroom => exact ih (h.insert (by omega))

theorem Tidy.merge (h : Tidy family white gray) (entries : List (ListEntry n)) :
    Tidy family white
      (trim (Wrkz.mergeLoop family allowLocal white gray
        (groupCounts (gray.map fun e => family e.ip)) entries) p2pLocalGrayPeerlistLimit) := by
  have hstart : Merging family white gray (groupCounts (gray.map fun e => family e.ip)) :=
    ⟨h.distinct,fun g => le_rfl,h.groups⟩
  obtain ⟨counts,hmerged⟩ := hstart.mergeLoop allowLocal entries
  have hkept := trim_subperm (Wrkz.mergeLoop family allowLocal white gray
    (groupCounts (gray.map fun e => family e.ip)) entries) p2pLocalGrayPeerlistLimit
  exact ⟨nodup_addresses ((List.Subperm.refl white).append hkept) hmerged.distinct,h.whiteLimit,
    trim_length_le _ _,fun g => (inGroup_le_of_subperm hkept g).trans (hmerged.groups g)⟩

end Merge

namespace PeerManager

structure TidyLists (m : PeerManager) : Prop where
  v4 : Tidy .v4 m.white m.gray
  v6 : Tidy .v6 m.white6 m.gray6

variable {m : PeerManager}

theorem tidyLists_new (allowLocalIp : Bool) : (new allowLocalIp).TidyLists := ⟨tidy_nil,tidy_nil⟩

variable (h : m.TidyLists)
include h

theorem TidyLists.appendWhite (entry : PeerlistEntry) : (m.appendWhite entry).TidyLists := by
  have hpromoted := h.v4.promote entry
  unfold PeerManager.appendWhite
  split
  · exact h
  · dsimp only
    split
    · next hknown =>
      rw [if_pos hknown] at hpromoted
      exact ⟨hpromoted,h.v6⟩
    · next hknown =>
      rw [if_neg hknown] at hpromoted
      exact ⟨hpromoted,h.v6.subperm (trim_subperm _ _) (List.Subperm.refl _)⟩

theorem TidyLists.appendWhite6 (entry : PeerlistEntry6) : (m.appendWhite6 entry).TidyLists := by
  have hpromoted := h.v6.promote entry
  unfold PeerManager.appendWhite6
  split
  · exact h
  · dsimp only
    split
    · next hknown =>
      rw [if_pos hknown] at hpromoted
      exact ⟨h.v4,hpromoted⟩
    · next hknown =>
      rw [if_neg hknown] at hpromoted
      exact ⟨h.v4.subperm (trim_subperm _ _) (List.Subperm.refl _),hpromoted⟩

theorem TidyLists.mergePeerlist (entries : List PeerlistEntry)
    (senderLocalTime now : Nat) : (m.mergePeerlist entries senderLocalTime now).2.TidyLists := by
  unfold PeerManager.mergePeerlist
  dsimp only
  split
  · exact h
  · exact ⟨h.v4.merge _,h.v6.subperm (List.Subperm.refl _) (trim_subperm _ _)⟩

theorem TidyLists.mergePeerlist6 (entries : List PeerlistEntry6) (now : Nat) :
    (m.mergePeerlist6 entries now).TidyLists :=
  ⟨h.v4.subperm (List.Subperm.refl _) (trim_subperm _ _),h.v6.merge _⟩

theorem TidyLists.step (step : PeerStep) : (step.run m).TidyLists := by
  cases step with
  | mergePeerlist entries senderLocalTime now => exact h.mergePeerlist entries senderLocalTime now
  | mergePeerlist6 entries now => exact h.mergePeerlist6 entries now
  | setPeerJustSeen peerId addr now =>
    obtain ⟨ip,port⟩ := addr
    cases ip with
    | v4 ip => exact ⟨(h.appendWhite _).v4,(h.appendWhite _).v6⟩
    | v6 ip => exact ⟨(h.appendWhite6 _).v4,(h.appendWhite6 _).v6⟩
  | addCommandLinePeer addr id =>
    obtain ⟨ip,port⟩ := addr
    cases ip with
    | v4 ip =>
      simp only [PeerStep.run, PeerManager.addCommandLinePeer]
      split
      · exact h
      · exact h.appendWhite _
    | v6 ip =>
      simp only [PeerStep.run, PeerManager.addCommandLinePeer]
      split
      · exact h
      · exact h.appendWhite6 _
  | penalise ip points now =>
    simp only [PeerStep.run, PeerManager.penalise]
    split <;> exact ⟨h.v4,h.v6⟩
  | ban ip seconds now => exact ⟨h.v4,h.v6⟩
  | unban ip => exact ⟨h.v4,h.v6⟩
  | setSeeds seeds => exact ⟨h.v4,h.v6⟩
  | noteDialFailure addr now => exact ⟨h.v4,h.v6⟩
  | expire now => exact ⟨h.v4,h.v6⟩

end PeerManager

/-- A call on the peer manager: those of the engine, and the two that put an entry on a white
list as it is. -/
inductive ListCall where
  | step (s : PeerStep)
  | appendWhite (entry : PeerlistEntry)
  | appendWhite6 (entry : PeerlistEntry6)

def ListCall.run (m : PeerManager) : ListCall → PeerManager
  | .step s => s.run m
  | .appendWhite entry => m.appendWhite entry
  | .appendWhite6 entry => m.appendWhite6 entry

namespace PeerManager

variable {m : PeerManager}

def runCalls (m : PeerManager) (calls : List ListCall) : PeerManager := calls.foldl ListCall.run m

theorem TidyLists.runCalls (h : m.TidyLists) (calls : List ListCall) :
    (m.runCalls calls).TidyLists := by
  induction calls generalizing m with
  | nil => exact h
  | cons call calls ih =>
    apply ih
    cases call with
    | step s => exact h.step s
    | appendWhite entry => exact h.appendWhite entry
    | appendWhite6 entry => exact h.appendWhite6 entry

theorem shift_le (senderLocalTime now lastSeen : Nat) : shift senderLocalTime now lastSeen ≤ now :=
  Nat.min_le_right _ _

theorem mergePeerlist_lastSeen {entries : List PeerlistEntry} {senderLocalTime now : Nat}
    {e : PeerlistEntry} (he : e ∈ (m.mergePeerlist entries senderLocalTime now).2.gray) :
    e ∈ m.gray ∨ e.lastSeen ≤ now := by
  unfold mergePeerlist at he
  dsimp only at he
  split at he
  · exact .inl he
  · rcases mem_mergeLoop (mem_trim he) with hnew | hold
    · obtain ⟨f,-,rfl⟩ := mem_map.1 hnew
      exact .inr (shift_le _ _ _)
    · exact .inl hold

theorem mergePeerlist6_lastSeen {entries : List PeerlistEntry6} {now : Nat} {e : PeerlistEntry6}
    (he : e ∈ (m.mergePeerlist6 entries now).gray6) : e ∈ m.gray6 ∨ e.lastSeen ≤ now := by
  rcases mem_mergeLoop (mem_trim he) with hnew | hold
  · obtain ⟨f,-,rfl⟩ := mem_map.1 hnew
    exact .inr (Nat.min_le_right _ _)
  · exact .inl hold

end PeerManager

open PeerManager

/-- In every state the calls lead to from empty lists: both families are tidy, and what a merge
then writes was last seen by our own clock at the latest. -/
theorem peerlists_tidy (allowLocalIp : Bool) (calls : List ListCall) :
    let m := (new allowLocalIp).runCalls calls
    m.TidyLists ∧
    (∀ entries senderLocalTime now, ∀ e ∈ (m.mergePeerlist entries senderLocalTime now).2.gray,
      e ∈ m.gray ∨ e.lastSeen ≤ now) ∧
    ∀ entries now, ∀ e ∈ (m.mergePeerlist6 entries now).gray6, e ∈ m.gray6 ∨ e.lastSeen ≤ now := by
  intro m
  refine ⟨(tidyLists_new allowLocalIp).runCalls calls,?_,?_⟩
  · intro entries senderLocalTime now e he
    exact mergePeerlist_lastSeen he
  · intro entries now e he
    exact mergePeerlist6_lastSeen he

end Wrkz
