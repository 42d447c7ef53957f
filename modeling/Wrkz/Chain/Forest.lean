import Wrkz.Chain.Run

/-!
The alternative blocks as a forest over the main chain: who builds on whom, and
what dropping a block with everything built on it removes. The loop of
`drop_alternative_subtree` ends with a set that is closed under children.
-/

set_option autoImplicit false

namespace Wrkz

open Library List

namespace AltBlocks

variable {alts : AltBlocks}

theorem mem_entries_iff {e : Sigma fun _ : Hash => AltBlock} :
    e ∈ alts.entries ↔ alts.lookup e.1 = some e.2 :=
  AList.mem_lookup_iff.symm

/-- `x` is `root` or is built on it, through held blocks. -/
inductive Descends (alts : AltBlocks) (root : Hash) : Hash → Prop where
  | root : Descends alts root root
  | child {x : Hash} {alt : AltBlock} (h : alts.lookup x = some alt)
      (hparent : Descends alts root alt.prevHash) : Descends alts root x

def ClosedUnder (alts : AltBlocks) (doomed : List Hash) : Prop :=
  ∀ x alt, alts.lookup x = some alt → alt.prevHash ∈ doomed → x ∈ doomed

def doomedStep (doomed : List Hash) (e : Sigma fun _ : Hash => AltBlock) : List Hash :=
  if e.2.prevHash ∈ doomed ∧ e.1 ∉ doomed then e.1 :: doomed else doomed

theorem doomedPass_eq (doomed : List Hash) :
    alts.doomedPass doomed = alts.entries.foldl doomedStep doomed := rfl

theorem subset_foldl_doomedStep (entries : List (Sigma fun _ : Hash => AltBlock))
    (doomed : List Hash) : doomed ⊆ entries.foldl doomedStep doomed := by
  induction entries generalizing doomed with
  | nil => exact fun _ h => h
  | cons e entries ih =>
    have hstep : doomed ⊆ doomedStep doomed e := by
      unfold doomedStep
      split
      · exact fun _ h => mem_cons_of_mem _ h
      · exact fun _ h => h
    exact fun _ h => ih _ (hstep h)

theorem length_le_foldl_doomedStep (entries : List (Sigma fun _ : Hash => AltBlock))
    (doomed : List Hash) : doomed.length ≤ (entries.foldl doomedStep doomed).length := by
  induction entries generalizing doomed with
  | nil => exact Nat.le_refl _
  | cons e entries ih =>
    have hstep : doomed.length ≤ (doomedStep doomed e).length := by
      unfold doomedStep
      split <;> simp
    exact Nat.le_trans hstep (ih _)

theorem closedUnder_of_length_eq {doomed : List Hash}
    (h : (alts.doomedPass doomed).length = doomed.length) : alts.ClosedUnder doomed := by
  have hall : ∀ (entries : List (Sigma fun _ : Hash => AltBlock)),
      (entries.foldl doomedStep doomed).length = doomed.length →
      ∀ e ∈ entries, e.2.prevHash ∈ doomed → e.1 ∈ doomed := by
    intro entries
    induction entries with
    | nil => simp
    | cons e entries ih =>
      intro hlen
      have hrest := length_le_foldl_doomedStep entries (doomedStep doomed e)
      simp only [foldl_cons] at hlen
      by_cases hadd : e.2.prevHash ∈ doomed ∧ e.1 ∉ doomed
      · simp only [doomedStep, if_pos hadd, length_cons] at hlen hrest
        omega
      · have hsame : doomedStep doomed e = doomed := by simp only [doomedStep, if_neg hadd]
        rw [hsame] at hlen
        intro e' he' hprev
        rcases mem_cons.1 he' with rfl | he'
        · by_contra hnot
          exact hadd ⟨hprev,hnot⟩
        · exact ih hlen e' he' hprev
  intro x alt hx hprev
  exact hall alts.entries h ⟨x,alt⟩ (mem_entries_iff.2 hx) hprev

theorem foldl_doomedStep_spec (root : Hash) (entries : List (Sigma fun _ : Hash => AltBlock)) :
    ∀ (doomed : List Hash), (∀ e ∈ entries, alts.lookup e.1 = some e.2) → doomed.Nodup →
      (∀ x ∈ doomed, x = root ∨ x ∈ alts.keys) → (∀ x ∈ doomed, alts.Descends root x) →
      (entries.foldl doomedStep doomed).Nodup ∧
        (∀ x ∈ entries.foldl doomedStep doomed, x = root ∨ x ∈ alts.keys) ∧
        ∀ x ∈ entries.foldl doomedStep doomed, alts.Descends root x := by
  induction entries with
  | nil => exact fun _ _ hnodup hkeys hdesc => ⟨hnodup,hkeys,hdesc⟩
  | cons e entries ih =>
    intro doomed hentries hnodup hkeys hdesc
    have he := hentries e mem_cons_self
    have hrest : ∀ e ∈ entries, alts.lookup e.1 = some e.2 :=
      fun e' he' => hentries e' (mem_cons_of_mem _ he')
    by_cases hadd : e.2.prevHash ∈ doomed ∧ e.1 ∉ doomed
    · have hstep : doomedStep doomed e = e.1 :: doomed := if_pos hadd
      simp only [foldl_cons, hstep]
      refine ih _ hrest (nodup_cons.2 ⟨hadd.2,hnodup⟩) ?_ ?_
      · intro x hx
        rcases mem_cons.1 hx with rfl | hx
        · exact .inr (AList.mem_keys.2 (AList.lookup_isSome.1 (by rw [he]; rfl)))
        · exact hkeys x hx
      · intro x hx
        rcases mem_cons.1 hx with rfl | hx
        · exact .child he (hdesc _ hadd.1)
        · exact hdesc x hx
    · have hstep : doomedStep doomed e = doomed := if_neg hadd
      simp only [foldl_cons, hstep]
      exact ih _ hrest hnodup hkeys hdesc

/-- What `drop_alternative_subtree` collects: everything built on the root, and
nothing else. -/
structure Doomed (alts : AltBlocks) (root : Hash) (doomed : List Hash) : Prop where
  root_mem : root ∈ doomed
  closed : alts.ClosedUnder doomed
  descends : ∀ x ∈ doomed, alts.Descends root x

theorem length_keys : alts.keys.length = alts.length := by
  simp [AltBlocks.length, AList.keys, keys]

theorem doomedFrom_spec {root : Hash} : ∀ (fuel : Nat) (doomed : List Hash), root ∈ doomed →
    doomed.Nodup → (∀ x ∈ doomed, x = root ∨ x ∈ alts.keys) →
    (∀ x ∈ doomed, alts.Descends root x) → alts.length + 1 < doomed.length + fuel →
    Doomed alts root (alts.doomedFrom fuel doomed) := by
  intro fuel
  induction fuel with
  | zero =>
    intro doomed _ hnodup hkeys _ hlen
    -- there are not that many blocks
    have hsub : doomed ⊆ root :: alts.keys := by
      intro x hx
      rcases hkeys x hx with rfl | hx
      · exact mem_cons_self
      · exact mem_cons_of_mem _ hx
    have hle := (hnodup.subperm hsub).length_le
    rw [length_cons, length_keys] at hle
    omega
  | succ fuel ih =>
    intro doomed hroot hnodup hkeys hdesc hlen
    unfold doomedFrom
    dsimp only
    obtain ⟨hnodup',hkeys',hdesc'⟩ := foldl_doomedStep_spec root alts.entries doomed
      (fun e he => mem_entries_iff.1 he) hnodup hkeys hdesc
    have hle := length_le_foldl_doomedStep alts.entries doomed
    rw [← doomedPass_eq] at hnodup' hkeys' hdesc' hle
    split
    · rename_i heq
      exact ⟨hroot,closedUnder_of_length_eq heq,hdesc⟩
    · rename_i hne
      exact ih _ (subset_foldl_doomedStep _ _ hroot) hnodup' hkeys' hdesc' (by omega)

theorem dropSubtree_spec (alts : AltBlocks) (root : Hash) :
    ∃ doomed, Doomed alts root doomed ∧ alts.dropSubtree root = alts.dropAll doomed := by
  refine ⟨_,doomedFrom_spec (alts.length+1) [root] (by simp) (by simp) (by simp) ?_ (by simp),rfl⟩
  intro x hx
  rw [mem_singleton.1 hx]
  exact .root

theorem dropSubtree_lookup (alts : AltBlocks) (root x : Hash) [Decidable (alts.Descends root x)] :
    (alts.dropSubtree root).lookup x =
      if alts.Descends root x then none else alts.lookup x := by
  obtain ⟨doomed,hdoomed,heq⟩ := dropSubtree_spec alts root
  rw [heq, dropAll_lookup]
  have hiff : x ∈ doomed ↔ alts.Descends root x := by
    constructor
    · exact hdoomed.descends x
    · intro h
      induction h with
      | root => exact hdoomed.root_mem
      | child hx _ ih => exact hdoomed.closed _ _ hx ih
  by_cases hx : alts.Descends root x
  · rw [if_pos (hiff.2 hx), if_pos hx]
  · rw [if_neg (fun hmem => hx (hiff.1 hmem)), if_neg hx]

theorem Descends.of_follows {root x : Hash} : ∀ {branch : List Hash} {y : Hash},
    alts.Descends root y → Follows alts y branch → x ∈ branch → alts.Descends root x := by
  intro branch
  induction branch with
  | nil => simp
  | cons h rest ih =>
    intro y hy hfollows hx
    obtain ⟨⟨alt,halt,hprev⟩,hrest⟩ := hfollows
    have hdesc : alts.Descends root h := .child halt (by rw [hprev]; exact hy)
    rcases mem_cons.1 hx with rfl | hx
    · exact hdesc
    · exact ih hdesc hrest hx

end AltBlocks

section

variable {cx : Crypto} {U : Set RawBlock} {s : ChainState} {alts : AltBlocks}

variable {branch : List Hash} {i : Nat}

theorem Follows.altIndex (hU : UniqueIds cx U) (halts : AltsSound cx U alts) :
    ∀ {y : Hash} {pt : BlockTemplate} {i : Nat}, pt ∈ templatesOf U → pt.hash cx = .ok y →
      pt.coinbaseHeight = some i → Follows alts y branch → ∀ {j : Nat} {x : Hash},
      branch[j]? = some x → ∃ alt, alts.lookup x = some alt ∧ alt.index = i + 1 + j := by
  induction branch with
  | nil => simp
  | cons h rest ih =>
    intro y pt i hpt hhash hheight hfollows j x hx
    obtain ⟨⟨alt,halt,hprev⟩,hrest⟩ := hfollows
    obtain ⟨t,p,ha⟩ := halts h alt halt
    -- the parent it was checked on is the block below
    have hparent : p = pt :=
      hU p ha.parentKnown pt hpt y (by rw [← hprev]; exact ha.parentHashed) hhash
    obtain ⟨i',hi',hindex⟩ := ha.parentHeight
    rw [hparent, hheight] at hi'
    cases hi'
    cases j with
    | zero =>
      cases hx
      exact ⟨alt,halt,by omega⟩
    | succ j =>
      obtain ⟨alt',halt',hindex'⟩ := ih ⟨_,ha.known,ha.parsed⟩ ha.hashed ha.height hrest hx
      exact ⟨alt',halt',by omega⟩

theorem branchLoop_length {fuel : Nat} {cursor : Hash} {acc : List Hash}
    (h : s.branchLoop fuel cursor acc = .ok (i,branch)) :
    branch.length ≤ fuel + acc.length := by
  induction h using ChainState.branchLoop_induction with
  | main => omega
  | held _ _ _ _ _ _ _ ih =>
    rw [length_cons] at ih
    omega

theorem branchHashes_length {hash : Hash}
    (h : s.branchHashes hash = .ok (i,branch)) : branch.length ≤ s.altBlocks.length := by
  simpa using branchLoop_length h

end

end Wrkz
