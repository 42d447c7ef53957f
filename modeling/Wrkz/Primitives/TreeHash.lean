import Wrkz.Primitives.Canonical
import Wrkz.Chain.Sample

/-!
The tree of transaction hashes and the branch of its first leaf. What the two functions
hash is listed, so that a root decides its leaves as far as no pair of these collides.
-/

set_option autoImplicit false

namespace Wrkz

open Library List

def climbInput (path : Option Hash) (depth : Nat) (h acc : Hash) : Bytes :=
  if pathBit path depth then h.bytes ++ acc.bytes else acc.bytes ++ h.bytes

def climbInputs (cx : Crypto) (path : Option Hash) : List Hash → Nat → Hash → List Bytes
  | [], _, _ => []
  | h :: rest, depth, acc =>
    climbInput path depth h acc ::
      climbInputs cx path rest (depth-1) (cx.cnFastHash (climbInput path depth h acc))

/-- What `tree_hash_from_branch` hashes. -/
def branchInputs (cx : Crypto) (branch : List Hash) (leaf : Hash) (path : Option Hash) :
    List Bytes :=
  climbInputs cx path branch.reverse (branch.length-1) leaf

def pairInputs : List Hash → List Bytes
  | l :: r :: rest => (l.bytes ++ r.bytes) :: pairInputs rest
  | _ => []

def levelInputs (cx : Crypto) : Nat → List Hash → List Bytes
  | 0, _ => []
  | k+1, hs => pairInputs hs ++ levelInputs cx k (hashPairs cx hs)

def directLeaves (hashes : List Hash) : Nat := 2*2^Nat.log2 (hashes.length-1) - hashes.length

def fullLevel (cx : Crypto) (hashes : List Hash) : List Hash :=
  hashes.take (directLeaves hashes) ++ hashPairs cx (hashes.drop (directLeaves hashes))

/-- What `tree_hash` hashes. -/
def treeInputs (cx : Crypto) (hashes : List Hash) : List Bytes :=
  pairInputs (hashes.drop (directLeaves hashes)) ++
    levelInputs cx (Nat.log2 (hashes.length-1)) (fullLevel cx hashes)

variable {cx : Crypto}

theorem bytes_append_inj {l r l' r' : Hash} (h : l.bytes ++ r.bytes = l'.bytes ++ r'.bytes) :
    l = l' ∧ r = r' := by
  obtain ⟨hl,hr⟩ := append_inj h (by rw [l.length_eq, l'.length_eq])
  exact ⟨ByteVec.ext hl,ByteVec.ext hr⟩

theorem climb_cons (path : Option Hash) (h : Hash) (rest : List Hash) (depth : Nat) (acc : Hash) :
    treeHashFromBranchLoop cx path (h :: rest) depth acc =
      treeHashFromBranchLoop cx path rest (depth-1)
        (cx.cnFastHash (climbInput path depth h acc)) := by
  unfold climbInput
  rw [treeHashFromBranchLoop]
  split <;> rfl

variable {xs ys : List Hash} {hashes : List Hash} {path : Option Hash} {a b : Hash} {k : Nat}

theorem climb_inj {depth : Nat} (hlen : xs.length = ys.length)
    (hfree : NoCollision cx (climbInputs cx path xs depth a) (climbInputs cx path ys depth b))
    (h : treeHashFromBranchLoop cx path xs depth a = treeHashFromBranchLoop cx path ys depth b) :
    a = b := by
  induction xs generalizing ys depth a b with
  | nil =>
    rw [length_nil, eq_comm, length_eq_zero_iff] at hlen
    subst hlen
    exact h
  | cons x xs ih =>
    cases ys with
    | nil => simp at hlen
    | cons y ys =>
      rw [climb_cons, climb_cons] at h
      have hnode := ih (by simpa using hlen)
        (hfree.mono (subset_cons_self _ _) (subset_cons_self _ _)) h
      have hinput := hfree _ mem_cons_self _ mem_cons_self hnode
      unfold climbInput at hinput
      split at hinput
      · exact (bytes_append_inj hinput).2
      · exact (bytes_append_inj hinput).1

theorem treeHashFromBranch_inj (hlen : xs.length = ys.length)
    (hfree : NoCollision cx (branchInputs cx xs a path) (branchInputs cx ys b path))
    (h : treeHashFromBranchWithPath cx xs a path = treeHashFromBranchWithPath cx ys b path) :
    a = b := by
  unfold treeHashFromBranchWithPath at h
  unfold branchInputs at hfree
  rw [← hlen] at h hfree
  exact climb_inj (by simpa using hlen) hfree h

theorem hashPairs_length (cx : Crypto) :
    ∀ hs : List Hash, (hashPairs cx hs).length = (hs.length + 1) / 2
  | [] => rfl
  | [_] => by simp [hashPairs]
  | _ :: _ :: rest => by
    rw [hashPairs, length_cons, hashPairs_length cx rest]
    simp only [length_cons]
    omega

theorem hashPairs_inj : ∀ xs ys : List Hash, xs.length = ys.length →
    NoCollision cx (pairInputs xs) (pairInputs ys) → hashPairs cx xs = hashPairs cx ys → xs = ys
  | [], [], _, _, _ => rfl
  | [_], [_], _, _, h => h
  | [], _ :: _, hlen, _, _ => by simp at hlen
  | _ :: _, [], hlen, _, _ => by simp at hlen
  | [_], _ :: _ :: _, hlen, _, _ => by simp at hlen
  | _ :: _ :: _, [_], hlen, _, _ => by simp at hlen
  | l :: r :: xs, l' :: r' :: ys, hlen, hfree, h => by
    obtain ⟨hnode,hrest⟩ := cons.inj h
    obtain ⟨hl,hr⟩ := bytes_append_inj (hfree _ mem_cons_self _ mem_cons_self hnode)
    have htail := hashPairs_inj xs ys (by simpa using hlen)
      (hfree.mono (subset_cons_self _ _) (subset_cons_self _ _)) hrest
    rw [hl, hr, htail]

theorem treeLevels_inj (hx : xs.length = 2^k)
    (hy : ys.length = 2^k) (hfree : NoCollision cx (levelInputs cx k xs) (levelInputs cx k ys))
    (h : (treeLevels cx k xs).headD default = (treeLevels cx k ys).headD default) : xs = ys := by
  induction k generalizing xs ys with
  | zero =>
    obtain ⟨a,rfl⟩ := length_eq_one_iff.1 hx
    obtain ⟨b,rfl⟩ := length_eq_one_iff.1 hy
    simpa [treeLevels] using h
  | succ k ih =>
    have hhalf {zs : List Hash} (hz : zs.length = 2^(k+1)) : (hashPairs cx zs).length = 2^k := by
      rw [hashPairs_length, hz, Nat.pow_succ]
      omega
    have hlevel := ih (hhalf hx) (hhalf hy)
      (hfree.mono (subset_append_right _ _) (subset_append_right _ _)) h
    exact hashPairs_inj xs ys (hx.trans hy.symm)
      (hfree.mono (subset_append_left _ _) (subset_append_left _ _)) hlevel

theorem treeHash_eq (cx : Crypto) (hne : hashes ≠ []) :
    treeHash cx hashes =
      (treeLevels cx (Nat.log2 (hashes.length-1)) (fullLevel cx hashes)).headD default := by
  match hashes, hne with
  | [h], _ => rfl
  | [l,r], _ => rfl
  | _ :: _ :: _ :: _, _ => rfl

theorem fullLevel_length (hne : hashes ≠ []) :
    (fullLevel cx hashes).length = 2 ^ Nat.log2 (hashes.length-1) := by
  have hpos := length_pos_iff.2 hne
  unfold fullLevel
  rw [length_append, length_take, hashPairs_length, length_drop]
  unfold directLeaves
  by_cases hone : hashes.length = 1
  · rw [hone]
    decide
  · have hlow := Nat.log2_self_le (n := hashes.length-1) (by omega)
    have hhigh := Nat.lt_log2_self (n := hashes.length-1)
    rw [Nat.pow_succ] at hhigh
    omega

theorem treeHash_inj (hne : xs ≠ []) (hlen : xs.length = ys.length)
    (hfree : NoCollision cx (treeInputs cx xs) (treeInputs cx ys))
    (h : treeHash cx xs = treeHash cx ys) : xs = ys := by
  have hne' : ys ≠ [] := by
    intro hnil
    rw [hnil] at hlen
    exact hne (length_eq_zero_iff.1 hlen)
  rw [treeHash_eq cx hne, treeHash_eq cx hne', ← hlen] at h
  have hy : (fullLevel cx ys).length = 2 ^ Nat.log2 (ys.length-1) := fullLevel_length hne'
  unfold treeInputs at hfree
  rw [← hlen] at hy hfree
  have hfull := treeLevels_inj (fullLevel_length hne) hy
    (hfree.mono (subset_append_right _ _) (subset_append_right _ _)) h
  have hdirect : directLeaves xs = directLeaves ys := by
    unfold directLeaves
    rw [hlen]
  unfold fullLevel at hfull
  rw [hdirect] at hfull hfree
  obtain ⟨htake,hpairs⟩ := append_inj hfull (by simp [hlen])
  have hdrop := hashPairs_inj _ _ (by simp [hlen])
    (hfree.mono (subset_append_left _ _) (subset_append_left _ _)) hpairs
  rw [← take_append_drop (directLeaves ys) xs, htake, hdrop, take_append_drop]

/-- The `while` of `tree_branch`. The first of `ints` goes into the branch, the others are
paired. -/
def treeBranchLoop (cx : Crypto) : Nat → List Hash → List Hash → List Hash
  | 0, _, branch => branch
  | depth+1, ints, branch =>
    treeBranchLoop cx depth (hashPairs cx (ints.drop 1)) (ints.headD default :: branch)

def treeBranch (cx : Crypto) (hashes : List Hash) : List Hash :=
  let cnt := 2 ^ Nat.log2 hashes.length
  let direct := 2*cnt - hashes.length
  treeBranchLoop cx (treeDepth hashes.length)
    ((hashes.take direct).drop 1 ++ hashPairs cx (hashes.drop direct)) []

theorem climb_none (branch : List Hash) (depth : Nat) (leaf : Hash) :
    treeHashFromBranchLoop cx none branch depth leaf = branch.foldl (hashPair cx) leaf := by
  induction branch generalizing depth leaf with
  | nil => rfl
  | cons h rest ih =>
    rw [treeHashFromBranchLoop, ih]
    rfl

theorem foldl_treeBranchLoop {ints branch : List Hash} (leaf : Hash)
    (hlen : ints.length + 1 = 2 ^ k) :
    (treeBranchLoop cx k ints branch).reverse.foldl (hashPair cx) leaf =
      (treeLevels cx k (branch.reverse.foldl (hashPair cx) leaf :: ints)).headD default := by
  induction k generalizing ints branch with
  | zero => rfl
  | succ k ih =>
    cases ints with
    | nil =>
      rw [Nat.pow_succ, length_nil] at hlen
      omega
    | cons x rest =>
      have hhalf : (hashPairs cx rest).length + 1 = 2 ^ k := by
        rw [hashPairs_length]
        rw [Nat.pow_succ, length_cons] at hlen
        omega
      have hclimb := @ih (hashPairs cx rest) (x :: branch) hhalf
      rw [reverse_cons, foldl_append] at hclimb
      exact hclimb

/-- The tree from the largest power of two up to the number of leaves, where `treeHash`
takes the largest one below it. -/
theorem treeHash_eq_treeLevels (cx : Crypto) (hne : hashes ≠ []) :
    treeHash cx hashes = (treeLevels cx (Nat.log2 hashes.length)
      (hashes.take (2*2 ^ Nat.log2 hashes.length - hashes.length) ++
        hashPairs cx (hashes.drop (2*2 ^ Nat.log2 hashes.length - hashes.length)))).headD
          default := by
  have hpos := length_pos_iff.2 hne
  have hlow := Nat.log2_self_le (n := hashes.length) (by omega)
  have hhigh := Nat.lt_log2_self (n := hashes.length)
  rw [treeHash_eq cx hne, fullLevel, directLeaves]
  generalize hk : Nat.log2 hashes.length = k at *
  rw [Nat.pow_succ] at hhigh
  rcases hlow.eq_or_lt with hpower | hless
  · cases k with
    | zero => simp [← hpower]
    | succ k =>
      -- a full tree: the pairs of its last level are made first
      have hbelow : Nat.log2 (hashes.length-1) = k := by
        rw [← hpower, Nat.pow_succ, Nat.log2_eq_iff (by have := Nat.two_pow_pos k; omega),
          Nat.pow_succ]
        have := Nat.two_pow_pos k
        omega
      rw [Nat.pow_succ] at hpower
      rw [hbelow, Nat.pow_succ, hpower, show 2*2 ^ k - hashes.length = 0 by omega,
        show 2*hashes.length - hashes.length = hashes.length by omega]
      simp [treeLevels, hashPairs]
  · have hsame : Nat.log2 (hashes.length-1) = k := by
      rw [Nat.log2_eq_iff (by have := Nat.two_pow_pos k; omega), Nat.pow_succ]
      omega
    rw [hsame]

/-- The branch of the first leaf leads to the root, and the root of a list determines it
among the lists of its length, unless the pair hash collides on what the two trees hash. -/
theorem treeBranch_proves_first (cx : Crypto) (hashes : List Hash) (hne : hashes ≠ []) :
    treeHashFromBranchWithPath cx (treeBranch cx hashes) (hashes.headD default) none =
        treeHash cx hashes ∧
      ∀ ys : List Hash, ys.length = hashes.length →
        NoCollision cx (treeInputs cx hashes) (treeInputs cx ys) →
        treeHash cx hashes = treeHash cx ys → hashes = ys := by
  refine ⟨?_,fun ys hlen hfree h => treeHash_inj hne hlen.symm hfree h⟩
  have hpos := length_pos_iff.2 hne
  have hlow := Nat.log2_self_le (n := hashes.length) (by omega)
  have hhigh := Nat.lt_log2_self (n := hashes.length)
  rw [Nat.pow_succ] at hhigh
  unfold treeHashFromBranchWithPath treeBranch
  rw [climb_none, treeDepth, if_neg (by omega), foldl_treeBranchLoop, treeHash_eq_treeLevels cx hne]
  · obtain ⟨leaf,rest,rfl⟩ := exists_cons_of_ne_nil hne
    obtain ⟨direct,hdirect⟩ : ∃ d, 2*2 ^ Nat.log2 (leaf :: rest).length -
        (leaf :: rest).length = d+1 := ⟨_,(Nat.succ_pred_eq_of_pos (by omega)).symm⟩
    simp only [hdirect, take_succ_cons, drop_succ_cons, drop_zero, reverse_nil,
      foldl_nil, headD_cons, cons_append]
  · rw [length_append, length_drop, length_take, hashPairs_length, length_drop]
    omega

theorem treeBranch_proves_first_sample :
    treeHashFromBranchWithPath sampleCrypto (treeBranch sampleCrypto [ByteVec.zero 32,mixHash [1],
        mixHash [2]]) (ByteVec.zero 32) none =
      treeHash sampleCrypto [ByteVec.zero 32,mixHash [1],mixHash [2]] :=
  (treeBranch_proves_first sampleCrypto [ByteVec.zero 32,mixHash [1],mixHash [2]] (by simp)).1

end Wrkz
