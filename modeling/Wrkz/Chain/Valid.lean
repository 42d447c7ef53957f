import Wrkz.Chain.Grove

/-!
Valid chains, whole: every block of them passes all checks on the blocks below.
A chain is known by its infos. What a node holds of a valid chain is never what a
switch fails on, so it is never dropped for a broken rule.
-/

set_option autoImplicit false

namespace Wrkz

open Library MainChain List

def UniqueBlocks (cx : Crypto) (U : Set RawBlock) : Prop :=
  ∀ r ∈ U, ∀ r' ∈ U, ∀ h, r.id? cx = some h → r'.id? cx = some h → r' = r

/-- A chain from the genesis block `g` whose blocks are all accepted where they stand. -/
structure Valid {cx : Crypto} (cfg : Config) (checkpoints : Checkpoints) (now : Nat)
    (g : MainBlock cx) (U : Set RawBlock) (c : MainChain cx) : Prop where
  isGenesis : IsGenesis g
  head : c.head? = some g
  linked : Linked U c
  certified : Certified cfg checkpoints now c
  wellSpent : ∀ b ∈ c, WellSpent b

section

variable {cx : Crypto} {U U' : Set RawBlock} {cfg : Config} {checkpoints : Checkpoints}
  {now : Nat} {s t : ChainState} {chain p q bs c c' : MainChain cx} {b b' g : MainBlock cx}
  {x y hash : Hash} {a alt : AltBlock} {alts : AltBlocks} {infos infos' : List BlockInfo}

theorem UniqueBlocks.uniqueIds (h : UniqueBlocks cx U) : UniqueIds cx U := by
  intro t ht u hu x htx hux
  obtain ⟨r,hr,hrt⟩ := ht
  obtain ⟨r',hr',hru⟩ := hu
  have heq := h r hr r' hr' x (by simp [RawBlock.id?, hrt, htx, Except.toOption])
    (by simp [RawBlock.id?, hru, hux, Except.toOption])
  subst heq
  rw [hrt] at hru
  cases hru
  rfl

theorem UniqueBlocks.mono (h : UniqueBlocks cx U') (hsub : U ⊆ U') : UniqueBlocks cx U :=
  fun r hr r' hr' => h r (hsub hr) r' (hsub hr')

theorem MainBlock.id?_eq (b : MainBlock cx) : b.raw.id? cx = some b.info.blockHash := by
  simp [RawBlock.id?, b.parsed, b.hashed, Except.toOption]

theorem AltSound.id?_eq {t p : BlockTemplate} (h : AltSound cx U x a t p) :
    a.raw.id? cx = some x := by
  have hparsed : BlockTemplate.fromBytes a.raw.block = .ok t := h.parsed
  simp [RawBlock.id?, hparsed, h.hashed, Except.toOption]

theorem MainBlock.eq_of_info (hb : WellSpent b) (hb' : WellSpent b') (hraw : b'.raw = b.raw)
    (hinfo : b'.info = b.info) : b' = b := by
  have hblock : b'.block = b.block := by
    have h := b'.parsed
    rw [hraw, b.parsed] at h
    exact (Except.ok.inj h).symm
  have htxs : b'.transactions = b.transactions := by
    have h := b'.transactionsParsed
    rw [hblock, hraw, b.transactionsParsed] at h
    exact (Except.ok.inj h).symm
  have hcoinbase : b'.coinbaseHash = b.coinbaseHash := by
    have h := b'.coinbaseHashed
    rw [hblock, b.coinbaseHashed] at h
    exact (Except.ok.inj h).symm
  have himages : b'.images = b.images := by
    rw [hb'.images, hb.images, MainBlock.spent, MainBlock.spent, htxs]
  cases b
  cases b'
  simp only at hblock hraw htxs hcoinbase hinfo himages
  subst hblock hraw htxs hcoinbase hinfo himages
  rfl

theorem MainChain.eq_of_infos (hB : UniqueBlocks cx U) (hc : ∀ b ∈ c, b.raw ∈ U ∧ WellSpent b)
    (hc' : ∀ b ∈ c', b.raw ∈ U ∧ WellSpent b) (h : MainChain.infos c' = MainChain.infos c) :
    c' = c := by
  induction c generalizing c' with
  | nil => simpa [infos] using h
  | cons b c ih =>
    cases c' with
    | nil => simp [MainChain.infos] at h
    | cons b' c' =>
      simp only [MainChain.infos, map_cons, cons.injEq] at h
      obtain ⟨hknown,hwell⟩ := hc b mem_cons_self
      obtain ⟨hknown',hwell'⟩ := hc' b' mem_cons_self
      have hraw : b'.raw = b.raw := hB _ hknown _ hknown' b.info.blockHash b.id?_eq
        (by rw [← h.1]; exact b'.id?_eq)
      rw [MainBlock.eq_of_info hwell hwell' hraw h.1, ih (fun d hd => hc d (mem_cons_of_mem _ hd))
        (fun d hd => hc' d (mem_cons_of_mem _ hd)) h.2]

theorem Valid.members (h : Valid cfg checkpoints now g U c) : ∀ b ∈ c, b.raw ∈ U ∧ WellSpent b :=
  fun b hb => ⟨h.linked.known b hb,h.wellSpent b hb⟩

theorem Kept.members (h : Kept U (Settled cfg checkpoints now) s chain) :
    ∀ b ∈ chain, b.raw ∈ U ∧ WellSpent b :=
  fun b hb => ⟨h.sound.linked.known b hb,h.inv.wellSpent b hb⟩

theorem Valid.nonempty (h : Valid cfg checkpoints now g U c) : c ≠ [] := by
  intro hnil
  have hhead := h.head
  rw [hnil] at hhead
  cases hhead

theorem Valid.of_append (hne : c ≠ []) (h : Valid cfg checkpoints now g U (c ++ c')) :
    Valid cfg checkpoints now g U c where
  isGenesis := h.isGenesis
  head := by
    have hhead := h.head
    cases c with
    | nil => exact absurd rfl hne
    | cons d c => exact hhead
  linked := h.linked.of_append
  certified := h.certified.of_append
  wellSpent b hb := h.wellSpent b (mem_append_left _ hb)

section

variable (hU : UniqueIds cx U) (hsound : Sound U s chain) (h : Lineage s.altBlocks chain x infos)
include hU hsound h

theorem Lineage.height :
    ∃ t ∈ templatesOf U, t.hash cx = .ok x ∧ t.coinbaseHeight = some (infos.length-1) := by
  induction h with
  | @main i b hb =>
    have hlt := (List.getElem?_eq_some_iff.1 hb).1
    refine ⟨b.block,hsound.linked.template_mem b (List.mem_of_getElem? hb),b.hashed,?_⟩
    rw [hsound.linked.height i b hb]
    simp [MainChain.infos]
    omega
  | @alt y d infos hd hparent ih =>
    obtain ⟨pt,hpt,hhash,hheight⟩ := ih
    obtain ⟨t,pt',hsnd⟩ := hsound.alts y d hd
    obtain ⟨i,hi,hindex⟩ := hsnd.parentHeight
    have heq : pt' = pt := hU pt' hsnd.parentKnown pt hpt _ hsnd.parentHashed hhash
    rw [heq, hheight] at hi
    cases hi
    have hpos := length_pos_iff.2 (hparent.ne_nil hsound.nonempty)
    refine ⟨t,⟨_,hsnd.known,hsnd.parsed⟩,hsnd.hashed,?_⟩
    rw [hsnd.height, hindex]
    simp
    omega

theorem Lineage.altIndex (ha : s.altBlocks.lookup x = some a) : a.index = infos.length - 1 := by
  obtain ⟨t,ht,hhash,hheight⟩ := h.height hU hsound
  obtain ⟨t',_,hsnd⟩ := hsound.alts x a ha
  have heq : t' = t := hU t' ⟨_,hsnd.known,hsnd.parsed⟩ t ht x hsnd.hashed hhash
  have hindex := hsnd.height
  rw [heq, hheight] at hindex
  exact (Option.some.inj hindex).symm

end

theorem Grove.branchHashes (hU : UniqueIds cx U) (h : Grove cfg checkpoints now U s chain)
    (hlineage : Lineage s.altBlocks chain x infos) : ∃ r, s.branchHashes x = .ok r := by
  have hwalk : ∃ path : List Hash, path.Nodup ∧ (∀ y ∈ path, y ∈ s.altBlocks.keys) ∧
      (∀ y ∈ path, ∀ a, s.altBlocks.lookup y = some a → a.index < infos.length) ∧
      ∀ fuel acc, path.length ≤ fuel → ∃ r, s.branchLoop fuel x acc = .ok r := by
    induction hlineage with
    | @main i b hb =>
      refine ⟨[],by simp,by simp,by simp,fun fuel acc _ => ?_⟩
      have hindex := h.kept.sound.holds.toHoldsTables.blockIndexByHash_iff.2 ⟨b,hb,rfl⟩
      have hnone : s.altBlocks.lookup b.info.blockHash = none := by
        refine Option.eq_none_iff_forall_ne_some.2 fun a ha => ?_
        exact h.rooted.apart _ a ha b (mem_of_getElem? hb) rfl
      refine ⟨(i,acc),?_⟩
      unfold ChainState.branchLoop
      simp [hnone, hindex, orRefuse, bind, Except.bind, pure, Except.pure]
    | @alt y d infos hd hparent ih =>
      obtain ⟨path,hnodup,hkeys,hlow,hloop⟩ := ih
      have hindex := (Lineage.alt hd hparent).altIndex hU h.kept.sound hd
      simp only [length_append, length_singleton, Nat.add_sub_cancel] at hindex
      refine ⟨y :: path,nodup_cons.2 ⟨?_,hnodup⟩,?_,?_,?_⟩
      · intro hmem
        have := hlow y hmem d hd
        omega
      · intro z hz
        rcases mem_cons.1 hz with rfl | hz
        · exact AltBlocks.mem_keys_iff.2 ⟨d,hd⟩
        · exact hkeys z hz
      · intro z hz e he
        simp only [length_append, length_singleton]
        rcases mem_cons.1 hz with rfl | hz
        · rw [hd] at he
          cases he
          omega
        · have := hlow z hz e he
          omega
      · intro fuel acc hfuel
        simp only [length_cons] at hfuel
        cases fuel with
        | zero => omega
        | succ fuel =>
          obtain ⟨r,hr⟩ := hloop fuel (y :: acc) (by omega)
          refine ⟨r,?_⟩
          unfold ChainState.branchLoop
          simp only [hd]
          exact hr
  obtain ⟨path,hnodup,hkeys,_,hloop⟩ := hwalk
  refine hloop s.altBlocks.length [] ?_
  rw [← AltBlocks.length_keys]
  exact (hnodup.subperm fun y hy => hkeys y hy).length_le

/-- The lineage of a block is below the lineage of everything built on it. -/
theorem Lineage.of_descends (hholds : HoldsTables s chain)
    (hapart : ∀ x a, alts.lookup x = some a → ∀ b ∈ chain, b.info.blockHash ≠ x)
    (hroot : Lineage alts chain x infos) (hdesc : alts.Descends x y)
    (h : Lineage alts chain y infos') : ∃ rest, infos' = infos ++ rest := by
  induction hdesc generalizing infos' with
  | root => exact ⟨[],by rw [Lineage.unique hholds hapart hroot h, append_nil]⟩
  | @child z d hd _ ih =>
    cases h with
    | @main i b hb => exact absurd rfl (hapart _ d hd b (mem_of_getElem? hb))
    | @alt _ d' infos₀ hd' hparent =>
      rw [hd] at hd'
      cases hd'
      obtain ⟨rest,rfl⟩ := ih hparent
      exact ⟨rest ++ [d.info],by simp⟩

variable {done rest : List Hash} {failedAt : Hash}

theorem Follows.of_append {z : Hash} :
    ∀ {x : Hash}, Follows alts x (done ++ z :: rest) →
      Follows alts x done ∧ ∃ d, alts.lookup z = some d ∧
        d.prevHash = ((x :: done).getLast?).getD x := by
  induction done with
  | nil =>
    intro x h
    obtain ⟨d,hd,hprev⟩ := h.1
    exact ⟨trivial,d,hd,by simpa using hprev⟩
  | cons w done ih =>
    intro x h
    obtain ⟨hdone,d,hd,hprev⟩ := ih h.2
    refine ⟨⟨h.1,hdone⟩,d,hd,?_⟩
    rw [hprev]
    simp [getLast?_cons]

theorem failed_lineage (hp : p ≠ []) (h : Grove cfg checkpoints now U s (p ++ q))
    (hbranch : s.branchHashes hash = .ok (p.length-1,done ++ failedAt :: rest))
    (hbuilt : List.Forall₂ (BuiltFrom s.altBlocks) done bs)
    (hcert : Certified cfg checkpoints now (p ++ bs)) :
    ∃ d, s.altBlocks.lookup failedAt = some d ∧
      Lineage s.altBlocks (p ++ q) failedAt (MainChain.infos (p ++ bs) ++ [d.info]) := by
  obtain ⟨x,hx,_,hfollows,_,_⟩ := branchHashes_ok hbranch
  obtain ⟨e,he,hex⟩ := h.kept.sound.fork_last hp hx
  subst hex
  obtain ⟨hdone,d,hd,hprev⟩ := hfollows.of_append
  have hroot : Lineage s.altBlocks (p ++ q) e.info.blockHash (infos p) := by
    obtain ⟨p',hp'⟩ := getLast?_eq_some_iff.1 he
    rw [hp', infos_append, append_assoc, singleton_append]
    exact Lineage.of_split e q
  obtain ⟨_,hlineages⟩ := built_moved h.kept.sound.holds.toHoldsTables h.rooted hbuilt hp hroot
    hdone hcert
  refine ⟨d,hd,.alt hd ?_⟩
  rw [hprev]
  rcases eq_nil_or_concat' done with hnil | ⟨done',z,hconcat⟩
  · subst hnil
    cases hbuilt
    simpa using hroot
  · have hz := hlineages done' z [] hconcat
    have hlen : done'.length + 1 = bs.length := by
      rw [← hbuilt.length_eq, hconcat]
      simp
    rw [hlen, take_length] at hz
    rw [hconcat, ← cons_append, getLast?_concat, Option.getD_some]
    exact hz

theorem Valid.not_failed (hB : UniqueBlocks cx U)
    {e : ChainError} (hp : p ≠ []) (h : Grove cfg checkpoints now U s (p ++ q))
    (hbranch : s.branchHashes hash = .ok (p.length-1,done ++ failedAt :: rest))
    (hbuilt : List.Forall₂ (BuiltFrom s.altBlocks) done bs)
    (hkept : Kept U (Settled cfg checkpoints now) t (p ++ bs)) (hsame : t.altBlocks = s.altBlocks)
    (href : RefusedOn cx t (p ++ bs) failedAt e) (hc : Valid cfg checkpoints now g U c)
    (hdesc : s.altBlocks.Descends failedAt y)
    (hlineage : Lineage s.altBlocks (p ++ q) y (MainChain.infos c)) : False := by
  obtain ⟨d,hd,hfailed⟩ := failed_lineage hp h hbranch hbuilt hkept.inv.certified
  obtain ⟨above,hinfos⟩ := hfailed.of_descends h.kept.sound.holds.toHoldsTables h.rooted.apart
    hdesc hlineage
  rw [append_assoc] at hinfos
  obtain ⟨c₁,c₂,rfl,hinfos₁,hinfos₂⟩ := map_eq_append_iff.1 hinfos
  rw [singleton_append] at hinfos₂
  obtain ⟨b,c₃,rfl,hinfo,_⟩ := map_eq_cons_iff.1 hinfos₂
  have hmembers : ∀ b ∈ c₁, b.raw ∈ U ∧ WellSpent b :=
    fun b hb => hc.members b (mem_append_left _ hb)
  have hsplit : c₁ = p ++ bs := eq_of_infos hB hkept.members hmembers hinfos₁
  subst hsplit
  have haccepted := hc.certified (p ++ bs) b c₃ rfl (by simp [hp])
  obtain ⟨k,hok⟩ := haccepted.checkMain (hkept.inv.nodeAt hkept.sound)
    (Nat.le_of_eq hkept.inv.clock.symm)
  obtain ⟨alt,block,halt,hparsed,hcheck⟩ := href
  rw [hsame, hd] at halt
  cases halt
  -- the branch block is the block of the valid chain
  obtain ⟨_,_,hsnd⟩ := h.kept.sound.alts failedAt d hd
  have hhash : b.info.blockHash = failedAt := by rw [hinfo, hsnd.infoHash]
  have hraw : d.raw = b.raw := hB b.raw (hc.linked.known b (by simp)) d.raw hsnd.known failedAt
    (by rw [← hhash]; exact b.id?_eq) hsnd.id?_eq
  have hblock : block = b.block := by
    have hp' : BlockTemplate.fromBytes d.raw.block = .ok block := hparsed
    rw [hraw, b.parsed] at hp'
    exact (Except.ok.inj hp').symm
  have htxs : d.txBlobs = b.raw.transactions := by rw [← hraw]; rfl
  rw [hblock, htxs, ← hhash, hok] at hcheck
  cases hcheck

end

end Wrkz
