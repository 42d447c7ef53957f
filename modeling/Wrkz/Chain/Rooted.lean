import Wrkz.Chain.Lineage

/-!
Every branch is rooted in the main chain, and every branch block has passed on
its lineage. Pushing a block, keeping a branch block, dropping what nothing else
is built on and switching to a branch all keep this.
-/

set_option autoImplicit false

namespace Wrkz

open Library MainChain List

structure Rooted {cx : Crypto} (cfg : Config) (checkpoints : Checkpoints) (now : Nat)
    (alts : AltBlocks) (chain : MainChain cx) : Prop where
  passed : ∀ x a, alts.lookup x = some a → ∃ infos, Lineage alts chain a.prevHash infos ∧
    PassedOn cx cfg checkpoints now infos a.raw x a.info
  apart : ∀ x a, alts.lookup x = some a → ∀ b ∈ chain, b.info.blockHash ≠ x

section

variable {cx : Crypto} {U : Set RawBlock} {cfg : Config} {checkpoints : Checkpoints}
  {now now' : Nat} {s t : ChainState} {infos infos' : List BlockInfo} {x hash : Hash}
  {a : AltBlock} {alts : AltBlocks} {chain p q bs : MainChain cx} {b : MainBlock cx}

theorem Lineage.unique (hholds : HoldsTables s chain)
    (hapart : ∀ x a, alts.lookup x = some a → ∀ b ∈ chain, b.info.blockHash ≠ x)
    (h : Lineage alts chain x infos) (h' : Lineage alts chain x infos') : infos' = infos := by
  induction h generalizing infos' with
  | @main i b hb =>
    generalize hx : b.info.blockHash = x at h'
    cases h' with
    | @main j c hc =>
      have hij := hholds.hash_injective hb hc hx
      rw [hij]
    | alt ha => exact absurd hx (hapart x _ ha b (mem_of_getElem? hb))
  | @alt x a infos ha _ ih =>
    cases h' with
    | @main j c hc => exact absurd rfl (hapart _ a ha c (mem_of_getElem? hc))
    | alt ha' hparent' =>
      rw [ha] at ha'
      cases ha'
      rw [ih hparent']

theorem Lineage.push (h : Lineage alts chain x infos) (b : MainBlock cx) :
    Lineage alts (chain ++ [b]) x infos := by
  induction h with
  | @main i c hc =>
    have hlt := (List.getElem?_eq_some_iff.1 hc).1
    have hc' : (chain ++ [b])[i]? = some c := by rwa [List.getElem?_append_left hlt]
    have hlineage : Lineage alts (chain ++ [b]) _ _ := .main hc'
    rwa [take_append_of_le_length (by omega)] at hlineage
  | alt ha _ ih => exact .alt ha ih

theorem Lineage.insert (hfresh : alts.lookup hash = none) (h : Lineage alts chain x infos) :
    Lineage (alts.insert hash a) chain x infos := by
  induction h with
  | main hc => exact .main hc
  | @alt y c infos hc _ ih =>
    have hne : y ≠ hash := by
      intro heq
      rw [heq, hfresh] at hc
      cases hc
    exact .alt (by rw [AList.lookup_insert_ne hne]; exact hc) ih

namespace Rooted

theorem mono (h : Rooted cfg checkpoints now alts chain) (hle : now ≤ now') :
    Rooted cfg checkpoints now' alts chain := by
  refine ⟨fun x a ha => ?_,h.apart⟩
  obtain ⟨infos,hlineage,hpassed⟩ := h.passed x a ha
  exact ⟨infos,hlineage,hpassed.mono hle⟩

theorem empty : Rooted cfg checkpoints now ∅ chain :=
  ⟨fun x a ha => by simp at ha,fun x a ha => by simp at ha⟩

theorem push (h : Rooted cfg checkpoints now alts chain)
    (hfresh : alts.lookup b.info.blockHash = none) :
    Rooted cfg checkpoints now alts (chain ++ [b]) := by
  refine ⟨fun x a ha => ?_,fun x a ha c hc => ?_⟩
  · obtain ⟨infos,hlineage,hpassed⟩ := h.passed x a ha
    exact ⟨infos,hlineage.push b,hpassed⟩
  · rcases mem_append.1 hc with hc | hc
    · exact h.apart x a ha c hc
    · rw [mem_singleton.1 hc]
      intro heq
      rw [heq, ha] at hfresh
      cases hfresh

theorem insert (h : Rooted cfg checkpoints now alts chain) (hfresh : alts.lookup hash = none)
    (hmain : ∀ b ∈ chain, b.info.blockHash ≠ hash) (hlineage : Lineage alts chain a.prevHash infos)
    (hpassed : PassedOn cx cfg checkpoints now infos a.raw hash a.info) :
    Rooted cfg checkpoints now (alts.insert hash a) chain := by
  constructor
  · intro y c hc
    by_cases hy : y = hash
    · subst hy
      rw [AList.lookup_insert] at hc
      cases hc
      exact ⟨infos,hlineage.insert hfresh,hpassed⟩
    · rw [AList.lookup_insert_ne hy] at hc
      obtain ⟨infos',hlineage',hpassed'⟩ := h.passed y c hc
      exact ⟨infos',hlineage'.insert hfresh,hpassed'⟩
  · intro y c hc
    by_cases hy : y = hash
    · subst hy
      exact hmain
    · rw [AList.lookup_insert_ne hy] at hc
      exact h.apart y c hc

end Rooted

variable {branch : List Hash} {c : MainBlock cx} {start : Nat} {doomed : List Hash}

theorem Lineage.drop (hclosed : alts.ClosedUnder doomed) (h : Lineage alts chain x infos)
    (hx : x ∉ doomed) : Lineage (alts.dropAll doomed) chain x infos := by
  induction h with
  | main hc => exact .main hc
  | @alt y c infos hc _ ih =>
    refine .alt ?_ (ih fun hmem => hx (hclosed y c hc hmem))
    rw [dropAll_lookup, if_neg hx]
    exact hc

theorem Rooted.drop (h : Rooted cfg checkpoints now alts chain)
    (hclosed : alts.ClosedUnder doomed) :
    Rooted cfg checkpoints now (alts.dropAll doomed) chain := by
  constructor
  · intro y c hc
    have hold := dropAll_lookup_some hc
    obtain ⟨infos,hlineage,hpassed⟩ := h.passed y c hold
    have hy : y ∉ doomed := by
      intro hmem
      rw [dropAll_lookup, if_pos hmem] at hc
      cases hc
    exact ⟨infos,hlineage.drop hclosed fun hmem => hy (hclosed y c hold hmem),hpassed⟩
  · intro y c hc
    exact h.apart y c (dropAll_lookup_some hc)

theorem Rooted.dropSubtree (h : Rooted cfg checkpoints now alts chain) (root : Hash) :
    Rooted cfg checkpoints now (alts.dropSubtree root) chain := by
  obtain ⟨doomed,hdoomed,heq⟩ := AltBlocks.dropSubtree_spec alts root
  rw [heq]
  exact h.drop hdoomed.closed

/-- The block of the chain has the record of the branch block it was built from. -/
def MovedFrom (alts : AltBlocks) (y : Hash) (b : MainBlock cx) : Prop :=
  ∃ a, alts.lookup y = some a ∧ b.info = a.info ∧ b.info.blockHash = y

theorem built_moved (hholds : HoldsTables s chain) (hrooted : Rooted cfg checkpoints now alts chain)
    (hbuilt : List.Forall₂ (BuiltFrom alts) branch bs) :
    ∀ {p : MainChain cx} {y : Hash}, p ≠ [] → Lineage alts chain y (MainChain.infos p) →
      Follows alts y branch → Certified cfg checkpoints now (p ++ bs) →
      List.Forall₂ (MovedFrom alts) branch bs ∧
        ∀ done z rest, branch = done ++ z :: rest →
          Lineage alts chain z (MainChain.infos (p ++ bs.take (done.length+1))) := by
  induction hbuilt with
  | nil =>
    intro p y _ _ _ _
    refine ⟨.nil,fun done z rest heq => ?_⟩
    simp at heq
  | @cons z b branch bs hb _ ih =>
    intro p y hp hy hfollows hcert
    obtain ⟨hhash,a,ha,hraw⟩ := hb
    obtain ⟨⟨a',ha',hprev⟩,hrest⟩ := hfollows
    rw [ha] at ha'
    cases ha'
    obtain ⟨infos,hlineage,hpassed⟩ := hrooted.passed z a ha
    rw [hprev] at hlineage
    have hinfos := Lineage.unique hholds hrooted.apart hy hlineage
    subst hinfos
    have hne : infos p ≠ [] := by simpa [infos] using hp
    have haccepted := (hcert p b bs rfl hp).passedOn
    rw [hhash, hraw] at haccepted
    have hinfo : b.info = a.info := hpassed.unique hne haccepted
    have hz : Lineage alts chain z (infos (p ++ [b])) := by
      have := Lineage.alt ha (by rw [hprev]; exact hy)
      rw [infos_append]
      simpa [infos, hinfo] using this
    obtain ⟨hmoved,hlineages⟩ := ih (p := p ++ [b]) (by simp) hz hrest (by simpa using hcert)
    refine ⟨.cons ⟨a,ha,hinfo,hhash⟩ hmoved,fun done z' rest heq => ?_⟩
    cases done with
    | nil =>
      simp only [nil_append, cons.injEq] at heq
      obtain ⟨rfl,_⟩ := heq
      simpa using hz
    | cons d done =>
      simp only [cons_append, cons.injEq] at heq
      have := hlineages done z' rest heq.2
      simpa using this

theorem keepAlts_lookup_of_not (hx : ∀ b ∈ q, b.info.blockHash ≠ x) :
    (keepAlts alts start q).lookup x = alts.lookup x := by
  induction q generalizing start with
  | nil => rfl
  | cons b q ih =>
    have hne : x ≠ b.info.blockHash := fun heq => hx b mem_cons_self heq.symm
    unfold keepAlts
    rw [AList.lookup_insert_ne hne]
    exact ih fun c hc => hx c (mem_cons_of_mem _ hc)

theorem keepAlts_lookup_of_mem {q₁ q₂ : MainChain cx}
    (hfresh : ∀ c ∈ q₁, c.info.blockHash ≠ b.info.blockHash) :
    (keepAlts alts start (q₁ ++ b :: q₂)).lookup b.info.blockHash =
      some (altOf (start + q₁.length) b) := by
  induction q₁ generalizing start with
  | nil =>
    unfold keepAlts
    simp [AList.lookup_insert]
  | cons c q₁ ih =>
    have hne : b.info.blockHash ≠ c.info.blockHash := (hfresh c mem_cons_self).symm
    rw [cons_append]
    unfold keepAlts
    rw [AList.lookup_insert_ne hne, ih fun d hd => hfresh d (mem_cons_of_mem _ hd)]
    simp only [length_cons]
    rw [show start + 1 + q₁.length = start + (q₁.length + 1) by omega]

theorem keepAlts_lookup_cases (h : (keepAlts alts start q).lookup x = some a) :
    (∃ q₁ b q₂, q = q₁ ++ b :: q₂ ∧ b.info.blockHash = x ∧ a = altOf (start + q₁.length) b) ∨
      (∀ b ∈ q, b.info.blockHash ≠ x) ∧ alts.lookup x = some a := by
  induction q generalizing start with
  | nil => exact .inr ⟨by simp,h⟩
  | cons b q ih =>
    unfold keepAlts at h
    by_cases hx : x = b.info.blockHash
    · rw [hx, AList.lookup_insert] at h
      cases h
      exact .inl ⟨[],b,q,rfl,hx.symm,by simp⟩
    · rw [AList.lookup_insert_ne hx] at h
      rcases ih h with ⟨q₁,c,q₂,rfl,hc,ha⟩ | ⟨hnot,ha⟩
      · refine .inl ⟨b :: q₁,c,q₂,rfl,hc,?_⟩
        rw [ha, length_cons, show start + 1 + q₁.length = start + (q₁.length + 1) by omega]
      · refine .inr ⟨?_,ha⟩
        intro c hc
        rcases mem_cons.1 hc with rfl | hc
        · exact fun heq => hx heq.symm
        · exact hnot c hc

theorem HoldsTables.hash_ne (h : HoldsTables s (p ++ b :: q)) :
    ∀ c ∈ p, c.info.blockHash ≠ b.info.blockHash := by
  intro c hc heq
  obtain ⟨i,hi⟩ := List.getElem?_of_mem hc
  have hlt := (List.getElem?_eq_some_iff.1 hi).1
  have hb : (p ++ b :: q)[p.length]? = some b := by simp
  have := h.hash_injective (by rw [List.getElem?_append_left hlt]; exact hi) hb heq
  omega

theorem Lineage.of_kept (base : AltBlocks) (hholds : HoldsTables s (p ++ q))
    (hlinked : Linked U (p ++ q)) (hlast : p.getLast? = some c) {chain' : MainChain cx}
    (hroot : ∀ alts, Lineage alts chain' c.info.blockHash (MainChain.infos p)) :
    ∀ (q₁ : MainChain cx) (b : MainBlock cx) (q₂ : MainChain cx), q = q₁ ++ b :: q₂ →
      Lineage (keepAlts base p.length q) chain' b.block.previousBlockHash
        (MainChain.infos (p ++ q₁)) ∧
      Lineage (keepAlts base p.length q) chain' b.info.blockHash
        (MainChain.infos (p ++ q₁ ++ [b])) := by
  intro q₁
  induction q₁ using reverseRecOn with
  | nil =>
    intro b q₂ hq
    subst hq
    have hprev : b.block.previousBlockHash = c.info.blockHash := (Linked.tailOn hlinked hlast).2.1
    have hparent : Lineage (keepAlts base p.length ([] ++ b :: q₂)) chain'
        b.block.previousBlockHash (infos (p ++ [])) := by
      rw [hprev, append_nil]
      exact hroot _
    refine ⟨hparent,?_⟩
    have hlookup : (keepAlts base p.length ([] ++ b :: q₂)).lookup b.info.blockHash =
        some (altOf (p.length + ([] : MainChain cx).length) b) :=
      keepAlts_lookup_of_mem (by simp)
    have := Lineage.alt hlookup hparent
    rw [infos_append]
    exact this
  | append_singleton q₁ d ih =>
    intro b q₂ hq
    have hq' : q = q₁ ++ d :: (b :: q₂) := by rw [hq]; simp
    obtain ⟨_,hd⟩ := ih d (b :: q₂) hq'
    have hprev : b.block.previousBlockHash = d.info.blockHash := by
      have htail : TailOn U d.info.blockHash (b :: q₂) :=
        Linked.tailOn (p := p ++ q₁ ++ [d]) (by simpa [hq'] using hlinked) (by simp)
      exact htail.2.1
    have hparent : Lineage (keepAlts base p.length q) chain' b.block.previousBlockHash
        (infos (p ++ (q₁ ++ [d]))) := by
      rw [hprev, ← append_assoc]
      exact hd
    refine ⟨hparent,?_⟩
    have hfresh : ∀ c ∈ q₁ ++ [d], c.info.blockHash ≠ b.info.blockHash := by
      intro c hc
      have hall : HoldsTables s (p ++ (q₁ ++ [d]) ++ b :: q₂) := by simpa [hq] using hholds
      exact hall.hash_ne c (mem_append_right _ hc)
    have hlookup : (keepAlts base p.length q).lookup b.info.blockHash =
        some (altOf (p.length + (q₁ ++ [d]).length) b) := by
      rw [hq]
      exact keepAlts_lookup_of_mem hfresh
    have := Lineage.alt hlookup hparent
    rw [infos_append]
    exact this

theorem Lineage.switch (hholds : HoldsTables s (p ++ q)) (hlinked : Linked U (p ++ q))
    (hlast : p.getLast? = some c) (hrooted : Rooted cfg checkpoints now alts (p ++ q))
    (hbuilt : List.Forall₂ (BuiltFrom alts) branch bs)
    (hfollows : Follows alts c.info.blockHash branch)
    (hcert : Certified cfg checkpoints now (p ++ bs)) (h : Lineage alts (p ++ q) x infos) :
    Lineage (keepAlts (alts.dropAll branch) p.length q) (p ++ bs) x infos := by
  have hp : p ≠ [] := by
    intro hnil
    rw [hnil] at hlast
    simp at hlast
  have hroot : ∀ (alts : AltBlocks) (r : MainChain cx),
      Lineage alts (p ++ r) c.info.blockHash (MainChain.infos p) := by
    intro alts r
    obtain ⟨p',hp'⟩ := getLast?_eq_some_iff.1 hlast
    subst hp'
    rw [infos_append, append_assoc, singleton_append]
    exact Lineage.of_split c r
  obtain ⟨hmoved,hlineages⟩ := built_moved hholds hrooted hbuilt hp (hroot alts q) hfollows hcert
  have hkept := Lineage.of_kept (alts.dropAll branch) hholds hlinked hlast
    (fun alts => hroot alts bs)
  induction h with
  | @main i b hb =>
    by_cases hi : i < p.length
    · rw [getElem?_append_left hi] at hb
      have hb' : (p ++ bs)[i]? = some b := by rwa [getElem?_append_left hi]
      have hlineage : Lineage (keepAlts (alts.dropAll branch) p.length q) (p ++ bs) _ _ := .main hb'
      rwa [List.take_append_of_le_length (by omega)] at hlineage ⊢
    · rw [List.getElem?_append_right (by omega)] at hb
      obtain ⟨hlt,hget⟩ := List.getElem?_eq_some_iff.1 hb
      have hq : q = q.take (i - p.length) ++ b :: q.drop (i - p.length + 1) := by
        rw [← hget, ← List.drop_eq_getElem_cons hlt, List.take_append_drop]
      have hlen : (q.take (i - p.length)).length = i - p.length := by simp; omega
      have htake : (p ++ q).take (i+1) = p ++ q.take (i - p.length) ++ [b] := by
        rw [take_append, take_of_length_le (by omega), append_assoc,
          show i + 1 - p.length = i - p.length + 1 by omega, take_succ_eq_append_getElem hlt, hget]
      rw [htake]
      exact (hkept _ b _ hq).2
  | @alt y a infos ha hparent ih =>
    by_cases hy : y ∈ branch
    · obtain ⟨done,rest,hbranch⟩ := append_of_mem hy
      have hold := hlineages done y rest hbranch
      have heq := Lineage.unique hholds hrooted.apart (.alt ha hparent) hold
      rw [← heq]
      -- its place on the new main chain
      have hlt : done.length < bs.length := by
        rw [← hbuilt.length_eq, hbranch]
        simp
      have hget : (p ++ bs)[p.length + done.length]? = some bs[done.length] := by
        rw [getElem?_append_right (by omega), Nat.add_sub_cancel_left, getElem?_eq_getElem hlt]
      have hhash : bs[done.length].info.blockHash = y := by
        have hpair := (forall₂_iff_get.1 hbuilt).2 done.length
          (by rw [hbranch]; simp) hlt
        have hy' : branch.get ⟨done.length,by rw [hbranch]; simp⟩ = y := by simp [hbranch]
        rw [hy'] at hpair
        exact hpair.1
      have hlineage : Lineage (keepAlts (alts.dropAll branch) p.length q) (p ++ bs) _ _ :=
        .main hget
      rw [hhash] at hlineage
      have htake : (p ++ bs).take (p.length + done.length + 1) = p ++ bs.take (done.length + 1) := by
        rw [take_append, take_of_length_le (by omega),
          show p.length + done.length + 1 - p.length = done.length + 1 by omega]
      rwa [htake] at hlineage
    · refine .alt ?_ ih
      rw [keepAlts_lookup_of_not fun b hb => hrooted.apart y a ha b (mem_append_right _ hb),
        dropAll_lookup, if_neg hy]
      exact ha

theorem Linked.parent_lineage (hlinked : Linked U (p ++ b :: q)) (hp : p ≠ []) :
    Lineage alts (p ++ b :: q) b.block.previousBlockHash (MainChain.infos p) := by
  obtain ⟨p',c,rfl⟩ := eq_nil_or_concat' p |>.resolve_left hp
  have hprev : b.block.previousBlockHash = c.info.blockHash :=
    (Linked.tailOn hlinked (by simp)).2.1
  rw [hprev, infos_append, append_assoc, singleton_append]
  exact Lineage.of_split c (b :: q)

theorem built_hash_mem (hbuilt : List.Forall₂ (BuiltFrom alts) branch bs)
    (hb : b ∈ bs) : b.info.blockHash ∈ branch ∧ ∃ a, alts.lookup b.info.blockHash = some a := by
  induction hbuilt with
  | nil => simp at hb
  | @cons z d branch bs hd _ ih =>
    rcases mem_cons.1 hb with rfl | hb
    · obtain ⟨hhash,a,ha,_⟩ := hd
      rw [hhash]
      exact ⟨mem_cons_self,a,ha⟩
    · obtain ⟨hmem,ha⟩ := ih hb
      exact ⟨mem_cons_of_mem _ hmem,ha⟩

theorem Rooted.switch (hholds : HoldsTables s (p ++ q)) (hlinked : Linked U (p ++ q))
    (hlast : p.getLast? = some c) (hcertOld : Certified cfg checkpoints now (p ++ q))
    (hrooted : Rooted cfg checkpoints now alts (p ++ q))
    (hbuilt : List.Forall₂ (BuiltFrom alts) branch bs)
    (hfollows : Follows alts c.info.blockHash branch)
    (hcert : Certified cfg checkpoints now (p ++ bs)) :
    Rooted cfg checkpoints now (keepAlts (alts.dropAll branch) p.length q) (p ++ bs) := by
  have hp : p ≠ [] := by
    intro hnil
    rw [hnil] at hlast
    simp at hlast
  have hmove : ∀ {y : Hash} {infos : List BlockInfo}, Lineage alts (p ++ q) y infos →
      Lineage (keepAlts (alts.dropAll branch) p.length q) (p ++ bs) y infos :=
    fun h => h.switch hholds hlinked hlast hrooted hbuilt hfollows hcert
  constructor
  · intro y a ha
    rcases keepAlts_lookup_cases ha with ⟨q₁,b,q₂,hq,hy,rfl⟩ | ⟨hnot,hbase⟩
    · subst hq
      have hparent : Lineage alts (p ++ (q₁ ++ b :: q₂)) b.block.previousBlockHash
          (infos (p ++ q₁)) := by
        rw [← append_assoc] at hlinked ⊢
        exact hlinked.parent_lineage (by simp [hp])
      refine ⟨_,hmove hparent,?_⟩
      have haccepted := hcertOld (p ++ q₁) b q₂ (by simp) (by simp [hp])
      rw [← hy]
      exact haccepted.passedOn
    · obtain ⟨infos,hlineage,hpassed⟩ := hrooted.passed y a (dropAll_lookup_some hbase)
      exact ⟨infos,hmove hlineage,hpassed⟩
  · intro y a ha b hb heq
    rcases keepAlts_lookup_cases ha with ⟨q₁,d,q₂,hq,hy,_⟩ | ⟨_,hbase⟩
    · rcases mem_append.1 hb with hb | hb
      · rw [hq, ← append_assoc] at hholds
        exact hholds.hash_ne b (mem_append_left _ hb) (heq.trans hy.symm)
      · obtain ⟨_,a',ha'⟩ := built_hash_mem hbuilt hb
        refine hrooted.apart _ a' ha' d ?_ (hy.trans heq.symm)
        rw [hq]
        simp
    · rcases mem_append.1 hb with hb | hb
      · exact hrooted.apart y a (dropAll_lookup_some hbase) b (mem_append_left _ hb) heq
      · have hmem := (built_hash_mem hbuilt hb).1
        rw [heq] at hmem
        rw [dropAll_lookup, if_pos hmem] at hbase
        cases hbase

end

end Wrkz
