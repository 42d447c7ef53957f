import Wrkz.Mempool.Coinbase

/-!
Amounts cut into denominations, a digit times a power of ten: `decompose_amount` with its
dust, and the wallet's `split_amount_into_denominations` with its largest output.
-/

set_option autoImplicit false

namespace Wrkz

open Library

/-- A digit and an exponent. -/
def denomination (p : Nat × Nat) : Nat := p.1*10 ^ p.2

/-- At most `n` pieces are dust, the others are denominations of different powers of ten
below `k`. -/
def CutInto (threshold k n : Nat) (amounts : List Nat) : Prop :=
  ∃ (dust : List Nat) (ps : List (Nat × Nat)),
    amounts.Perm (dust ++ ps.map denomination) ∧ dust.length ≤ n ∧ (∀ d ∈ dust, d ≤ threshold) ∧
    (∀ p ∈ ps, 0 < p.1 ∧ p.1 < 10 ∧ p.2 < k) ∧ (ps.map Prod.snd).Nodup

/-- `decompose_amount`, stopped where the sum of its dust and a chunk passes a `u64`. -/
def decomposeCheckedLoop (dustThreshold : Nat) :
    Nat → Nat → Nat → Nat → Bool → List Nat → Option (List Nat)
  | 0, _, _, dust, dustHandled, out =>
    some (if dustHandled = false ∧ dust ≠ 0 then out ++ [dust] else out)
  | fuel+1, a, order, dust, dustHandled, out =>
    if a = 0 then some (if dustHandled = false ∧ dust ≠ 0 then out ++ [dust] else out)
    else
      let chunk := a % 10*order
      let order' := order*10 % 2^64
      if 2^64 ≤ dust + chunk then none
      else if dust + chunk ≤ dustThreshold then
        decomposeCheckedLoop dustThreshold fuel (a / 10) order' (dust+chunk) dustHandled out
      else
        let handle := dustHandled = false ∧ dust ≠ 0
        let out := if handle then out ++ [dust] else out
        let out := if chunk ≠ 0 then out ++ [chunk] else out
        decomposeCheckedLoop dustThreshold fuel (a / 10) order' dust
          (dustHandled || decide handle) out

def decomposeChecked (amount dustThreshold : Nat) : Option (List Nat) :=
  decomposeCheckedLoop dustThreshold 20 amount 1 0 false []

namespace CutInto

variable {threshold k n : Nat} {out : List Nat}

theorem mono {k' n' : Nat} (h : CutInto threshold k n out) (hk : k ≤ k') (hn : n ≤ n') :
    CutInto threshold k' n' out := by
  obtain ⟨dust,ps,hperm,hlen,hdust,hps,hnodup⟩ := h
  refine ⟨dust,ps,hperm,hlen.trans hn,hdust,fun p hp => ?_,hnodup⟩
  obtain ⟨hpos,hten,hlt⟩ := hps p hp
  exact ⟨hpos,hten,by omega⟩

theorem dust {d : Nat} (h : CutInto threshold k 0 out) (hd : d ≤ threshold) :
    CutInto threshold k 1 (out ++ [d]) := by
  obtain ⟨dust,ps,hperm,hlen,-,hps,hnodup⟩ := h
  obtain rfl : dust = [] := List.length_eq_zero_iff.1 (by omega)
  refine ⟨[d],ps,?_,le_refl _,by simpa using hd,hps,hnodup⟩
  exact (List.perm_append_comm).trans (hperm.cons d)

theorem chunk {digit : Nat} (h : CutInto threshold k n out) (hpos : 0 < digit) (hten : digit < 10) :
    CutInto threshold (k+1) n (out ++ [digit*10 ^ k]) := by
  obtain ⟨dust,ps,hperm,hlen,hdust,hps,hnodup⟩ := h
  refine ⟨dust,ps ++ [(digit,k)],?_,hlen,hdust,fun p hp => ?_,?_⟩
  · rw [List.map_append, ← List.append_assoc]
    exact hperm.append_right _
  · rcases List.mem_append.1 hp with hp | hp
    · obtain ⟨hpos,hten,hlt⟩ := hps p hp
      exact ⟨hpos,hten,by omega⟩
    · obtain rfl := List.mem_singleton.1 hp
      exact ⟨hpos,hten,Nat.lt_succ_self k⟩
  · rw [List.map_append]
    refine hnodup.append (by simp) ?_
    intro e he hk
    obtain ⟨p,hp,rfl⟩ := List.mem_map.1 he
    have hlt := (hps p hp).2.2
    simp only [List.map_cons, List.map_nil, List.mem_singleton] at hk
    omega

variable {handled : Bool} (h : CutInto threshold k (if handled then 1 else 0) out)
include h

theorem digit {dust digit : Nat} (hdust : dust ≤ threshold) (hten : digit < 10) :
    CutInto threshold (k+1)
      (if (handled || decide (handled = false ∧ dust ≠ 0)) = true then 1 else 0)
      (if digit*10 ^ k ≠ 0 then
        (if handled = false ∧ dust ≠ 0 then out ++ [dust] else out) ++ [digit*10 ^ k]
      else if handled = false ∧ dust ≠ 0 then out ++ [dust] else out) := by
  have hout : CutInto threshold k
      (if (handled || decide (handled = false ∧ dust ≠ 0)) = true then 1 else 0)
      (if handled = false ∧ dust ≠ 0 then out ++ [dust] else out) := by
    by_cases hput : handled = false ∧ dust ≠ 0
    · rw [if_pos hput]
      simp only [hput.1, Bool.false_eq_true, if_false] at h
      simpa [hput.1, hput.2] using h.dust hdust
    · rw [if_neg hput]
      simpa [hput] using h
  by_cases hchunk : digit*10 ^ k ≠ 0
  · rw [if_pos hchunk]
    exact hout.chunk (Nat.pos_of_ne_zero fun hzero => hchunk (by rw [hzero, Nat.zero_mul])) hten
  · rw [if_neg hchunk]
    exact hout.mono (Nat.le_succ k) (le_refl _)

theorem finish {dust : Nat} (hdust : dust ≤ threshold) :
    CutInto threshold k 1 (if handled = false ∧ dust ≠ 0 then out ++ [dust] else out) := by
  cases handled with
  | true => simpa using h
  | false =>
    simp only [Bool.false_eq_true, if_false] at h
    split
    · exact h.dust hdust
    · exact h.mono (le_refl k) (by omega)

end CutInto

variable {fuel : Nat}

theorem decomposeCheckedLoop_eq {threshold amount : Nat} (hamount : amount < 2 ^ 64) :
    ∀ {a order dust k : Nat} {handled : Bool} {out : List Nat},
      Cutting threshold amount a order dust handled out → (a ≠ 0 → order = 10 ^ k) →
      CutInto threshold k (if handled then 1 else 0) out → dust ≤ threshold →
      (handled = true → dust ≤ out.sum) →
      decomposeCheckedLoop threshold fuel a order dust handled out =
          some (decomposeLoop threshold fuel a order dust handled out) ∧
        CutInto threshold (k+fuel) 1 (decomposeLoop threshold fuel a order dust handled out) := by
  induction fuel with
  | zero =>
    intro a order dust k handled out _ _ hcut hdust _
    exact ⟨rfl,hcut.finish hdust⟩
  | succ fuel ih =>
    intro a order dust k handled out h horder hcut hdust hheld
    unfold decomposeCheckedLoop decomposeLoop
    by_cases ha0 : a = 0
    · rw [if_pos ha0, if_pos ha0]
      exact ⟨rfl,(hcut.finish hdust).mono (by omega) (le_refl _)⟩
    obtain rfl := horder ha0
    have hsmall := h.small hamount
    have hnext : a / 10 ≠ 0 → 10 ^ k*10 % 2 ^ 64 = 10 ^ (k+1) := by
      intro hmore
      rw [next_order hsmall hmore, Nat.pow_succ]
    have hchunk : a % 10*10 ^ k ≤ a*10 ^ k := Nat.mul_le_mul_right _ (Nat.mod_le a 10)
    -- what is held and what is still to be cut are parts of the amount
    have hfits : ¬ 2 ^ 64 ≤ dust + a % 10*10 ^ k := by
      have htotal := h.total
      cases handled with
      | true =>
        have hout := hheld rfl
        simp only [if_true] at htotal
        omega
      | false =>
        simp only [Bool.false_eq_true, if_false] at htotal
        omega
    rw [if_neg ha0, if_neg ha0]
    dsimp only
    rw [if_neg hfits, show k+(fuel+1) = k+1+fuel by omega]
    by_cases hkeep : dust + a % 10*10 ^ k ≤ threshold
    · rw [if_pos hkeep, if_pos hkeep]
      refine ih (h.keep hamount ha0 hkeep) hnext (hcut.mono (Nat.le_succ k) (le_refl _)) hkeep ?_
      rintro rfl
      rw [h.digit_eq_zero ha0 hkeep]
      exact hheld rfl
    · rw [if_neg hkeep, if_neg hkeep]
      refine ih (h.emit hamount hkeep) hnext (hcut.digit hdust (Nat.mod_lt a (by omega))) hdust ?_
      intro _
      by_cases hput : handled = false ∧ dust ≠ 0
      · rw [if_pos hput]
        split <;> simp
        omega
      · rw [if_neg hput]
        have hold : dust ≤ out.sum := by
          cases handled with
          | true => exact hheld rfl
          | false =>
            have hzero : dust = 0 := by simpa using hput
            omega
        split <;> simp <;> omega

def maxOutputSizeClient : Nat := 500000000000

/-- The piece of a large denomination, and how many of them it takes. -/
def splitPiece : Nat → Nat → Nat → Nat × Nat
  | 0, splitAmount, numSplitAmounts => (splitAmount,numSplitAmounts)
  | fuel+1, splitAmount, numSplitAmounts =>
    if maxOutputSizeClient < splitAmount then
      splitPiece fuel (splitAmount / 10) (numSplitAmounts*10)
    else (splitAmount,numSplitAmounts)

def splitDenomination (preventTooLarge : Bool) (d : Nat) : List Nat :=
  if maxOutputSizeClient < d ∧ preventTooLarge = true then
    List.replicate (splitPiece 20 (d / 10) 10).2 (splitPiece 20 (d / 10) 10).1
  else if d ≠ 0 then [d]
  else []

def splitLoop (preventTooLarge : Bool) : Nat → Nat → Nat → List Nat → List Nat
  | 0, _, _, out => out
  | fuel+1, amount, multiplier, out =>
    if amount = 0 then out
    else splitLoop preventTooLarge fuel (amount / 10) (multiplier*10 % 2^64)
      (out ++ splitDenomination preventTooLarge (multiplier*(amount % 10) % 2^64))

def splitAmountIntoDenominations (amount : Nat) (preventTooLarge : Bool) : List Nat :=
  splitLoop preventTooLarge 20 amount 1 []

/-- A digit times a power of ten, within the largest output where that is asked for. -/
def IsPiece (preventTooLarge : Bool) (x : Nat) : Prop :=
  (∃ p : Nat × Nat, 0 < p.1 ∧ p.1 < 10 ∧ x = denomination p) ∧
    (preventTooLarge = true → x ≤ maxOutputSizeClient)

theorem div_ten (digit k : Nat) : digit*10 ^ (k+1) / 10 = digit*10 ^ k := by
  rw [Nat.pow_succ, ← Nat.mul_assoc, Nat.mul_div_cancel _ (by omega)]

theorem splitPiece_spec {digit fuel : Nat} (hpos : 0 < digit) (hten : digit < 10) :
    ∀ j num : Nat, j ≤ fuel →
      (splitPiece fuel (digit*10 ^ j) num).1*(splitPiece fuel (digit*10 ^ j) num).2 =
          digit*10 ^ j*num ∧
        IsPiece true (splitPiece fuel (digit*10 ^ j) num).1 := by
  have hpiece (j : Nat) (hle : digit*10 ^ j ≤ maxOutputSizeClient) : IsPiece true (digit*10 ^ j) :=
    ⟨⟨(digit,j),hpos,hten,rfl⟩,fun _ => hle⟩
  induction fuel with
  | zero =>
    intro j num hj
    obtain rfl : j = 0 := by omega
    exact ⟨rfl,hpiece 0 (by unfold maxOutputSizeClient; omega)⟩
  | succ fuel ih =>
    intro j num hj
    unfold splitPiece
    split
    · rename_i hlarge
      cases j with
      | zero =>
        unfold maxOutputSizeClient at hlarge
        omega
      | succ j =>
        obtain ⟨hprod,hpart⟩ := ih j (num*10) (by omega)
        rw [div_ten]
        refine ⟨?_,hpart⟩
        rw [hprod, Nat.pow_succ]
        ring
    · rename_i hsmall
      exact ⟨rfl,hpiece j (not_lt.1 hsmall)⟩

theorem splitDenomination_spec {digit k : Nat} (hten : digit < 10) (hk : k ≤ 20)
    (preventTooLarge : Bool) :
    (splitDenomination preventTooLarge (digit*10 ^ k)).sum = digit*10 ^ k ∧
      ∀ x ∈ splitDenomination preventTooLarge (digit*10 ^ k), IsPiece preventTooLarge x := by
  rcases Nat.eq_zero_or_pos digit with rfl | hpos
  · simp [splitDenomination]
  unfold splitDenomination
  split
  · rename_i hlarge
    obtain ⟨hlarge,rfl⟩ := hlarge
    cases k with
    | zero =>
      unfold maxOutputSizeClient at hlarge
      omega
    | succ k =>
      obtain ⟨hprod,hpart⟩ := splitPiece_spec hpos hten k 10 (show k ≤ 20 by omega)
      rw [div_ten]
      refine ⟨?_,fun x hx => ?_⟩
      · rw [List.sum_replicate, smul_eq_mul, Nat.mul_comm, hprod, Nat.pow_succ]
        ring
      · rw [List.eq_of_mem_replicate hx]
        exact hpart
  · rename_i hsmall
    have hne : digit*10 ^ k ≠ 0 := by positivity
    rw [if_pos hne]
    refine ⟨by simp,fun x hx => ?_⟩
    obtain rfl := List.mem_singleton.1 hx
    exact ⟨⟨(digit,k),hpos,hten,rfl⟩,fun hprevent => not_lt.1 fun hlt => hsmall ⟨hlt,hprevent⟩⟩

theorem splitLoop_spec {preventTooLarge : Bool} :
    ∀ (a multiplier k : Nat) (out : List Nat), a < 10 ^ fuel → k+fuel = 20 →
      (a ≠ 0 → multiplier = 10 ^ k) → a*multiplier < 2 ^ 64 →
      (∀ x ∈ out, IsPiece preventTooLarge x) →
      (splitLoop preventTooLarge fuel a multiplier out).sum = out.sum + a*multiplier ∧
        ∀ x ∈ splitLoop preventTooLarge fuel a multiplier out, IsPiece preventTooLarge x := by
  induction fuel with
  | zero =>
    intro a multiplier k out ha _ _ _ hout
    obtain rfl : a = 0 := by simpa using ha
    exact ⟨by simp [splitLoop],hout⟩
  | succ fuel ih =>
    intro a multiplier k out ha hk hmul hsmall hout
    unfold splitLoop
    by_cases ha0 : a = 0
    · rw [if_pos ha0]
      exact ⟨by simp [ha0],hout⟩
    obtain rfl := hmul ha0
    have hdigits := cut_digit hsmall
    have hless : a / 10 < 10 ^ fuel := by
      rw [Nat.pow_succ] at ha
      omega
    have hchunk : a % 10*10 ^ k % 2 ^ 64 = a % 10*10 ^ k := Nat.mod_eq_of_lt (by omega)
    rw [if_neg ha0, Nat.mul_comm _ (a % 10), hchunk]
    obtain ⟨hsum,hpieces⟩ := splitDenomination_spec (Nat.mod_lt a (by omega) : a % 10 < 10)
      (show k ≤ 20 by omega) preventTooLarge
    obtain ⟨htotal,hall⟩ := ih (a / 10) (10 ^ k*10 % 2 ^ 64) (k+1)
      (out ++ splitDenomination preventTooLarge (a % 10*10 ^ k)) hless (by omega)
      (fun hmore => by rw [next_order hsmall hmore, Nat.pow_succ]) (by omega)
      (fun x hx => (List.mem_append.1 hx).elim (hout x) (hpieces x))
    refine ⟨?_,hall⟩
    rw [htotal, List.sum_append, hsum]
    omega

theorem splitLoop_eq_decomposeLoop :
    ∀ {a order : Nat} {out : List Nat}, a*order < 2 ^ 64 →
      splitLoop false fuel a order out = decomposeLoop 0 fuel a order 0 false out := by
  induction fuel with
  | zero =>
    intro a order out _
    simp [splitLoop, decomposeLoop]
  | succ fuel ih =>
    intro a order out hsmall
    have hdigits := cut_digit hsmall
    unfold splitLoop decomposeLoop
    by_cases ha0 : a = 0
    · simp [ha0]
    have hchunk : a % 10*order % 2 ^ 64 = a % 10*order := Nat.mod_eq_of_lt (by omega)
    rw [if_neg ha0, if_neg ha0, Nat.mul_comm order (a % 10), hchunk, ih (by omega)]
    by_cases hzero : a % 10*order = 0 <;> simp [splitDenomination, hzero]

theorem minerOutputs_refusesOnly {keys : OneTimeKeys} {derivation publicSpendKey : Hash}
    (amounts : List Nat) (index : Nat) :
    RefusesOnly (· = .badKeys) (minerOutputs keys derivation publicSpendKey index amounts) := by
  induction amounts generalizing index with
  | nil => exact .ok []
  | cons amount rest ih =>
    refine .bind (.orRefuse rfl) fun key _ => .bind (ih (index+1)) fun outputs _ => .ok _

theorem constructMinerTx_refusesOnly (keys : OneTimeKeys) (version height median coins size fee : Nat)
    (view spend : Hash) (nonce : Bytes) (maxOuts : Nat) (txKeys : Hash × Hash) :
    RefusesOnly (fun e => ∀ summary reward, e ≠ .amountMismatch summary reward)
      (constructMinerTx keys version height median coins size fee view spend nonce maxOuts
        txKeys) := by
  refine .bind (.refuseIf (by simp)) fun _ _ => .bind ?_ fun extra _ => ?_
  · intro e he
    cases hbuild : buildExtra txKeys.2 (if nonce = [] then none else some nonce) none with
    | ok extra =>
      rw [hbuild] at he
      cases he
    | error e' =>
      rw [hbuild] at he
      cases he
      simp
  refine .bind (.orRefuse (by simp)) fun r hr => .bind (.refuseIf (by simp)) fun _ _ => ?_
  refine .bind (.orRefuse (by simp)) fun derivation _ => .bind ?_ fun outputs _ => .bind ?_ fun _ _ =>
    .ok _
  · intro e he
    rw [minerOutputs_refusesOnly _ _ e he]
    simp
  · -- merging the amounts leaves their sum, which is the reward
    intro e he
    have hlt := getBlockReward_lt (orRefuse_ok_iff.1 hr)
    have hsum := decomposeAmount_sum hlt (defaultDustThreshold height)
    refine absurd ?_ (refuseIf_error_iff.1 he).1
    rw [foldl_wrappingAdd _ (by norm_num), mergeOuts_sum (by omega), hsum, Nat.zero_add,
      Nat.mod_eq_of_lt hlt]

/-- Amounts are split exactly. `decompose_amount` adds without overflow, into pieces that
sum to the amount, all of them but one dust piece denominations of different powers of
ten; the wallet splits into denominations that sum to the amount, none too large where
that is asked for, and otherwise as `decompose_amount` without dust; and a coinbase is
never refused over its amounts. -/
theorem amounts_split_exactly :
    (∀ amount threshold : Nat, amount < 2 ^ 64 → threshold < 2 ^ 64 →
      decomposeChecked amount threshold = some (decomposeAmount amount threshold) ∧
        (decomposeAmount amount threshold).sum = amount ∧
        CutInto threshold 20 1 (decomposeAmount amount threshold)) ∧
      (∀ (amount : Nat) (preventTooLarge : Bool), amount < 2 ^ 64 →
        (splitAmountIntoDenominations amount preventTooLarge).sum = amount ∧
          (∀ x ∈ splitAmountIntoDenominations amount preventTooLarge,
            IsPiece preventTooLarge x) ∧
          splitAmountIntoDenominations amount false = decomposeAmount amount 0) ∧
      ∀ keys version height median coins size fee view spend nonce maxOuts txKeys summary reward,
        constructMinerTx keys version height median coins size fee view spend nonce maxOuts txKeys ≠
          .error (.amountMismatch summary reward) := by
  refine ⟨fun amount threshold h _ => ?_,fun amount prevent h => ?_,?_⟩
  · have hstart : Cutting threshold amount amount 1 0 false [] := ⟨by simp,by simp⟩
    have hcut : CutInto threshold 0 0 [] := ⟨[],[],.refl _,by simp,by simp,by simp,by simp⟩
    obtain ⟨hchecked,hpieces⟩ := decomposeCheckedLoop_eq h hstart (fun _ => rfl) hcut
      (Nat.zero_le _) (by simp)
    exact ⟨hchecked,decomposeAmount_sum h threshold,hpieces⟩
  · obtain ⟨hsum,hall⟩ := splitLoop_spec amount 1 0 [] (show amount < 10 ^ 20 by omega) rfl
      (fun _ => rfl) (by omega)
      (by simp)
    exact ⟨hsum.trans (by simp),hall,splitLoop_eq_decomposeLoop (by omega)⟩
  · intro keys version height median coins size fee view spend nonce maxOuts txKeys summary reward h
    exact constructMinerTx_refusesOnly keys version height median coins size fee view spend nonce
      maxOuts txKeys _ h summary reward rfl

end Wrkz
