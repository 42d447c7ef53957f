import Wrkz.Library.Ascending
import Wrkz.Library.Fallible
import Wrkz.Wallet.File

/-!
Ring assembly: the decoys the daemon gives for each input, our own output among them, and
the relative offsets that go into the transaction.
-/

set_option autoImplicit false

namespace Wrkz

open Library List

inductive WalletError where
  | invalidPublicKey
  | notEnoughFakeOutputs (message : String)
  | daemonOffline (message : String)
  | daemonError (message : String)
  deriving DecidableEq, Repr

/-- With the largest ring the chain can build, or zero when nothing was learned. -/
structure Failure where
  error : WalletError
  achievableMixin : Nat
  deriving DecidableEq, Repr

structure RandomOut where
  globalAmountIndex : Nat
  outKey : String
  deriving DecidableEq, Repr

structure RandomOutsForAmount where
  amount : Nat
  outs : List RandomOut
  deriving DecidableEq, Repr

structure RingDaemon where
  randomOuts : List Nat → Nat → Except DaemonError (List RandomOutsForAmount)
  /-- The message of a JSON body with error code 27, with its default. -/
  notEnoughOutputs : String → Option String
  errorText : DaemonError → String

namespace Wallet

structure OwnedSpendableInput where
  publicSpendKey : PublicKey
  privateSpendKey : SecretKey
  input : TransactionInput
  deriving DecidableEq, Repr

structure ObscuredInput where
  amount : Nat
  keyImage : KeyImage
  ring : List (Nat × PublicKey)
  realOutput : Nat
  privateEphemeral : SecretKey
  ownerPublicSpendKey : PublicKey
  deriving DecidableEq, Repr

def errorBody : DaemonError → Option String
  | .badRequest body => some body
  | .http _ body => some body
  | .status status => some status
  | _ => none

def classifyRandomOutsError (daemon : RingDaemon) (e : DaemonError) : WalletError :=
  match (errorBody e).bind daemon.notEnoughOutputs with
  | some message => .notEnoughFakeOutputs message
  | none => .daemonOffline (daemon.errorText e)

def decodeOut (o : RandomOut) : Except Failure (Nat × PublicKey) :=
  let outKey := o.outKey
  match Hex32.fromHex outKey with
  | some key => .ok (o.globalAmountIndex,key)
  | none => .error ⟨.daemonError s!"/getrandom_outs returned a bad output key {outKey}",0⟩

def decodeEntry (entry : RandomOutsForAmount) :
    Except Failure (Nat × List (Nat × PublicKey)) := do
  let set ← entry.outs.mapM decodeOut
  pure (entry.amount,set)

def achievableMixin (amounts : List Nat) (outs : List (Nat × List (Nat × PublicKey))) : Nat :=
  let allPresent := amounts.all fun a => outs.any fun o => o.1 = a
  match (outs.map fun o => o.2.length).min? with
  | some n => if 0 < n && allPresent then n - 1 else 0
  | none => 0

def tooFewOuts (amount requestedOuts found : Nat) : WalletError :=
  .notEnoughFakeOutputs (s!"failed to get enough matching outputs for amount {amount}. " ++
    s!"Requested outputs: {requestedOuts}, found outputs: {found}")

def checkSet (mixin achievable amount : Nat) (set : List (Nat × PublicKey)) :
    Except Failure Unit :=
  refuseIf (set.length < mixin) ⟨tooFewOuts amount (mixin+1) set.length,achievable⟩

def checkAmount (mixin achievable : Nat) (outs : List (Nat × List (Nat × PublicKey)))
    (amount : Nat) : Except Failure Unit := do
  let found ← orRefuse (outs.find? fun o => o.1 = amount)
    ⟨.notEnoughFakeOutputs s!"failed to get any matching outputs for amount {amount}",achievable⟩
  checkSet mixin achievable amount found.2

def getRingParticipants (daemon : RingDaemon) (mixin : Nat)
    (sources : List OwnedSpendableInput) : Except Failure (List (List (Nat × PublicKey))) :=
  if mixin = 0 then .ok []
  else do
    let amounts := sources.map fun s => s.input.amount
    let response ← (daemon.randomOuts amounts (mixin+1)).mapError fun e =>
      ⟨classifyRandomOutsError daemon e,0⟩
    let outs ← response.mapM decodeEntry
    let achievable := achievableMixin amounts outs
    amounts.forM (checkAmount mixin achievable outs)
    let found := outs.length
    let wanted := amounts.length
    refuseIf (found ≠ wanted) ⟨.notEnoughFakeOutputs
      s!"the daemon returned {found} output sets for {wanted} inputs",achievable⟩
    outs.forM fun o => checkSet mixin achievable o.1 o.2
    pure (outs.map Prod.snd)

/-- The loop over the decoys of an input: our own output is passed over, and the loop ends
as soon as there are enough. -/
def gatherDecoys (mixin globalIndex : Nat) :
    List (Nat × PublicKey) → List (Nat × PublicKey) → List (Nat × PublicKey)
  | [], ring => ring
  | (index,key) :: rest, ring =>
    if index = globalIndex then gatherDecoys mixin globalIndex rest ring
    else
      let ring := ring ++ [(index,key)]
      if mixin ≤ ring.length then ring else gatherDecoys mixin globalIndex rest ring

def missingGlobalIndex : WalletError :=
  .daemonError ("Missing global output index for one or more wallet outputs. " ++
    "Let sync continue on a full node and retry.")

/-- One turn of the loop of `prepare_ring_participants`. -/
def obscureInput (mixin : Nat) (fakeOuts : List (Nat × PublicKey))
    (source : OwnedSpendableInput) : Except Failure ObscuredInput := do
  let globalIndex ← orRefuse source.input.globalOutputIndex ⟨missingGlobalIndex,0⟩
  let ring := if mixin ≠ 0 then gatherDecoys mixin globalIndex fakeOuts [] else []
  refuseIf (ring.length < mixin) ⟨tooFewOuts source.input.amount mixin ring.length,ring.length⟩
  let own := (globalIndex,source.input.key)
  pure ⟨source.input.amount,source.input.keyImage,putInPlace Prod.fst own ring,
    placeOf Prod.fst own ring,source.input.privateEphemeral.getD SecretKey.null,
    source.publicSpendKey⟩

def byAmount (a b : OwnedSpendableInput) : Bool := a.input.amount ≤ b.input.amount

def prepareRingParticipants (daemon : RingDaemon) (sources : List OwnedSpendableInput)
    (mixin : Nat) : Except Failure (List ObscuredInput × List OwnedSpendableInput × Nat) := do
  let sources := sources.mergeSort byAmount
  let fakeOuts ← getRingParticipants daemon mixin sources
  let result ← sources.zipIdx.mapM fun si => obscureInput mixin (fakeOuts.getD si.2 []) si.1
  pure (result,sources,mixin)

def wrappingSub32 (a b : Nat) : Nat := (a + 2^32 - b) % 2^32

def relativeOffsets : List Nat → List Nat
  | [] => []
  | first :: rest => first :: go first rest
where
  go (prev : Nat) : List Nat → List Nat
    | [] => []
    | value :: rest => wrappingSub32 value prev :: go value rest

def ephemeralSecret (cx : WalletCrypto) (privateViewKey : SecretKey) (input : ObscuredInput)
    (source : OwnedSpendableInput) : Except WalletError SecretKey :=
  if input.privateEphemeral = SecretKey.null then do
    let derivation ← orRefuse
      (cx.generateKeyDerivation source.input.transactionPublicKey privateViewKey)
      .invalidPublicKey
    pure (cx.deriveSecretKey derivation source.input.transactionIndex source.privateSpendKey)
  else pure input.privateEphemeral

/-- One turn of the loop of `setup_inputs`. -/
def setupInput (cx : WalletCrypto) (privateViewKey : SecretKey) (input : ObscuredInput)
    (source : OwnedSpendableInput) : Except WalletError (ObscuredInput × Input × SecretKey) := do
  let secret ← ephemeralSecret cx privateViewKey input source
  let absolute := input.ring.map fun entry => entry.1 % 2^32
  pure ({ input with privateEphemeral := secret },
    .key input.amount (relativeOffsets absolute) input.keyImage,secret)

/-- The inputs with the secrets filled in, what goes into the transaction, and the secrets. -/
def setupInputs (cx : WalletCrypto) (obscured : List ObscuredInput)
    (sources : List OwnedSpendableInput) (privateViewKey : SecretKey) :
    Except WalletError (List ObscuredInput × List Input × List SecretKey) := do
  let done ← (obscured.zip sources).mapM fun io => setupInput cx privateViewKey io.1 io.2
  pure (done.map fun d => d.1,done.map fun d => d.2.1,done.map fun d => d.2.2)

def AscendingAnswer (response : List RandomOutsForAmount) : Prop :=
  ∀ entry ∈ response, Ascending RandomOut.globalAmountIndex entry.outs ∧
    ∀ o ∈ entry.outs, o.globalAmountIndex < 2^32

structure RingFor (mixin : Nat) (o : ObscuredInput) (s : OwnedSpendableInput) : Prop where
  size : o.ring.length = mixin + 1
  ascending : (o.ring.map Prod.fst).Pairwise (· < ·)
  own : ∃ globalIndex, s.input.globalOutputIndex = some globalIndex ∧
    o.ring[o.realOutput]? = some (globalIndex,s.input.key)

structure DecoySet (set : List (Nat × PublicKey)) : Prop where
  ascending : Ascending Prod.fst set
  fits : ∀ entry ∈ set, entry.1 < 2^32

theorem decoySet_nil : DecoySet [] := ⟨List.Pairwise.nil,by simp⟩

theorem DecoySet.sublist {set kept : List (Nat × PublicKey)} (h : DecoySet set)
    (hsub : kept.Sublist set) : DecoySet kept :=
  ⟨h.ascending.sublist hsub,fun entry he => h.fits entry (hsub.subset he)⟩

section Answer

variable {d : Nat × List (Nat × PublicKey)} {entry : RandomOutsForAmount}

theorem decodeEntry_indexes (h : decodeEntry entry = .ok d) :
    d.2.map Prod.fst = entry.outs.map RandomOut.globalAmountIndex := by
  simp only [decodeEntry, bind_ok_iff, pure_ok_iff] at h
  obtain ⟨set,hset,rfl⟩ := h
  have hone {o : RandomOut} {e : Nat × PublicKey} (he : decodeOut o = .ok e) :
      o.globalAmountIndex = e.1 := by
    unfold decodeOut at he
    dsimp only at he
    split at he
    · cases he
      rfl
    · cases he
  have hmap := (mapM_ok hset).imp fun o e he => hone he.2
  exact (forall₂_eq_eq_eq ▸ forall₂_map_left_iff.2 (forall₂_map_right_iff.2 hmap) :
    entry.outs.map _ = set.map _).symm

theorem decodeEntry_decoySet
    (h : decodeEntry entry = .ok d) (hasc : Ascending RandomOut.globalAmountIndex entry.outs)
    (hfits : ∀ o ∈ entry.outs, o.globalAmountIndex < 2^32) : DecoySet d.2 := by
  have hindexes := decodeEntry_indexes h
  constructor
  · have hmapped : (d.2.map Prod.fst).Pairwise (· < ·) := by
      rw [hindexes, pairwise_map]
      exact hasc
    exact pairwise_map.1 hmapped
  · intro e he
    have hmem : e.1 ∈ entry.outs.map RandomOut.globalAmountIndex := by
      rw [← hindexes]
      exact mem_map_of_mem he
    obtain ⟨o,ho,heq⟩ := mem_map.1 hmem
    exact heq ▸ hfits o ho

variable {daemon : RingDaemon} {mixin : Nat} {sources : List OwnedSpendableInput}
  {fakeOuts : List (List (Nat × PublicKey))}

variable (h : getRingParticipants daemon mixin sources = .ok fakeOuts)
include h

theorem getRingParticipants_ok (hmixin : mixin ≠ 0) :
    ∃ response outs, daemon.randomOuts (sources.map fun s => s.input.amount) (mixin+1) =
      .ok response ∧ response.mapM decodeEntry = .ok outs ∧ outs.length = sources.length ∧
      fakeOuts = outs.map Prod.snd := by
  simp only [getRingParticipants, if_neg hmixin, bind_ok_iff, refuseIf_ok_iff, pure_ok_iff,
    not_not, length_map] at h
  obtain ⟨response,hresponse,outs,houts,_,-,_,hlen,_,-,hfake⟩ := h
  exact ⟨response,outs,mapError_ok_iff.1 hresponse,houts,hlen,hfake.symm⟩

theorem getRingParticipants_decoySet
    (hanswer : ∀ response, daemon.randomOuts (sources.map fun s => s.input.amount) (mixin+1) =
      .ok response → AscendingAnswer response) (i : Nat) : DecoySet (fakeOuts.getD i []) := by
  by_cases hmixin : mixin = 0
  · simp only [getRingParticipants, if_pos hmixin] at h
    cases h
    exact decoySet_nil
  · obtain ⟨response,outs,hresponse,houts,-,rfl⟩ := getRingParticipants_ok h hmixin
    have hsets : ∀ d ∈ outs, DecoySet d.2 := by
      intro d hd
      obtain ⟨entry,hentry,hdec⟩ := mem_of_mapM_ok houts hd
      obtain ⟨hasc,hfits⟩ := hanswer _ hresponse entry hentry
      exact decodeEntry_decoySet hdec hasc hfits
    rw [getD_eq_getElem?_getD, getElem?_map]
    cases hi : outs[i]? with
    | none => exact decoySet_nil
    | some d => exact hsets d (mem_of_getElem? hi)

end Answer

section Ring

variable {set : List (Nat × PublicKey)} {mixin : Nat}

theorem gatherDecoys_eq (globalIndex : Nat) (set ring : List (Nat × PublicKey))
    (hroom : ring.length < mixin) :
    gatherDecoys mixin globalIndex set ring =
      ring ++ (set.filter fun e => e.1 ≠ globalIndex).take (mixin - ring.length) := by
  induction set generalizing ring with
  | nil => simp [gatherDecoys]
  | cons e set ih =>
    obtain ⟨index,key⟩ := e
    unfold gatherDecoys
    by_cases hown : index = globalIndex
    · rw [if_pos hown, ih ring hroom]
      simp [hown]
    · rw [if_neg hown, filter_cons_of_pos (by simpa using hown)]
      obtain ⟨left,hleft⟩ : ∃ left, mixin - ring.length = left + 1 := ⟨mixin - ring.length - 1,by omega⟩
      rw [hleft, take_succ_cons]
      dsimp only
      split
      · next hfull =>
        simp only [length_append, length_singleton] at hfull
        have hzero : left = 0 := by omega
        simp [hzero]
      · next hmore =>
        rw [ih _ (by omega), append_assoc]
        have hrest : mixin - (ring ++ [(index,key)]).length = left := by
          simp only [length_append, length_singleton]
          omega
        rw [hrest]
        rfl

theorem decoys_of_set (mixin globalIndex : Nat) (hset : DecoySet set) :
    let ring := if mixin ≠ 0 then gatherDecoys mixin globalIndex set [] else []
    DecoySet ring ∧ (∀ e ∈ ring, e.1 ≠ globalIndex) ∧ ring.length ≤ mixin := by
  intro ring
  by_cases hmixin : mixin = 0
  · have hring : ring = [] := if_neg (not_not.2 hmixin)
    rw [hring]
    exact ⟨decoySet_nil,by simp,Nat.zero_le _⟩
  · have hring : ring = (set.filter fun e => e.1 ≠ globalIndex).take mixin := by
      have hloop := gatherDecoys_eq globalIndex set [] (Nat.pos_of_ne_zero hmixin)
      simpa [ring, hmixin] using hloop
    rw [hring]
    have hsub := take_sublist mixin (set.filter fun e => e.1 ≠ globalIndex)
    refine ⟨hset.sublist (hsub.trans filter_sublist),?_,length_take_le _ _⟩
    intro e he
    simpa using (mem_filter.1 (hsub.subset he)).2

theorem obscureInput_ok {source : OwnedSpendableInput} {o : ObscuredInput}
    (h : obscureInput mixin set source = .ok o) (hset : DecoySet set)
    (hown : ∀ g, source.input.globalOutputIndex = some g → g < 2^32) :
    RingFor mixin o source ∧ ∀ e ∈ o.ring, e.1 < 2^32 := by
  simp only [obscureInput, bind_ok_iff, orRefuse_ok_iff, refuseIf_ok_iff, pure_ok_iff] at h
  obtain ⟨globalIndex,hindex,_,henough,rfl⟩ := h
  obtain ⟨hdecoys,hother,hlen⟩ := decoys_of_set mixin globalIndex hset
  refine ⟨⟨?_,?_,globalIndex,hindex,?_⟩,?_⟩
  · rw [putInPlace_length]
    omega
  · exact pairwise_map.2 (hdecoys.ascending.putInPlace hother)
  · exact putInPlace_getElem? _ _
  · intro e he
    rcases mem_putInPlace.1 he with rfl | he
    · exact hown _ hindex
    · exact hdecoys.fits e he

end Ring

section Offsets

theorem wrappingSub32_of_lt {a b : Nat} (h : b < a) (ha : a < 2^32) : wrappingSub32 a b = a - b := by
  unfold wrappingSub32
  omega

theorem sums_of_differences {prev : Nat} {rest : List Nat}
    (hasc : (prev :: rest).Pairwise (· < ·)) (hfits : ∀ v ∈ rest, v < 2^32) :
    relativeOffsetsToAbsolute.go prev (relativeOffsets.go prev rest) = some rest := by
  induction rest generalizing prev with
  | nil => rfl
  | cons v rest ih =>
    obtain ⟨hprev,hrest⟩ := pairwise_cons.1 hasc
    have hlt := hprev v (by simp)
    have hv := hfits v (by simp)
    have hadd : checkedAdd prev (wrappingSub32 v prev) = some v := by
      rw [wrappingSub32_of_lt hlt hv, checkedAdd, Nat.add_sub_cancel' hlt.le, if_pos (by omega)]
    have htail := ih hrest fun w hw => hfits w (by simp [hw])
    simp only [relativeOffsets.go, relativeOffsetsToAbsolute.go, hadd, htail, Option.bind_eq_bind,
      Option.bind_some, Option.pure_def]

theorem relativeOffsetsToAbsolute_relativeOffsets {indexes : List Nat}
    (hasc : indexes.Pairwise (· < ·)) (hfits : ∀ v ∈ indexes, v < 2^32) :
    relativeOffsetsToAbsolute (relativeOffsets indexes) = some indexes := by
  cases indexes with
  | nil => rfl
  | cons first rest =>
    have htail := sums_of_differences hasc fun v hv => hfits v (by simp [hv])
    simp only [relativeOffsets, relativeOffsetsToAbsolute, htail, Option.bind_eq_bind,
      Option.bind_some, Option.pure_def]

/-- What `setup_inputs` writes for a ring is read back as the ring's indexes. -/
def ReadsBack (o : ObscuredInput) (i : Input) : Prop :=
  ∃ offsets, i = .key o.amount offsets o.keyImage ∧
    relativeOffsetsToAbsolute offsets = some (o.ring.map Prod.fst)

variable {privateViewKey : SecretKey} {cx : WalletCrypto}

theorem setupInput_readsBack {o : ObscuredInput} {source : OwnedSpendableInput}
    {d : ObscuredInput × Input × SecretKey} (h : setupInput cx privateViewKey o source = .ok d)
    (hasc : (o.ring.map Prod.fst).Pairwise (· < ·)) (hfits : ∀ e ∈ o.ring, e.1 < 2^32) :
    ReadsBack o d.2.1 := by
  simp only [setupInput, bind_ok_iff, pure_ok_iff] at h
  obtain ⟨secret,-,rfl⟩ := h
  have hsame : (o.ring.map fun e => e.1 % 2^32) = o.ring.map Prod.fst :=
    map_congr_left fun e he => Nat.mod_eq_of_lt (hfits e he)
  refine ⟨_,rfl,?_⟩
  rw [hsame]
  refine relativeOffsetsToAbsolute_relativeOffsets hasc fun v hv => ?_
  obtain ⟨e,he,rfl⟩ := mem_map.1 hv
  exact hfits e he

theorem setupInputs_readsBack {obscured done : List ObscuredInput}
    {sources : List OwnedSpendableInput} {inputs : List Input} {secrets : List SecretKey}
    (h : setupInputs cx obscured sources privateViewKey = .ok (done,inputs,secrets))
    (hrings : List.Forall₂ (fun o _ => (o.ring.map Prod.fst).Pairwise (· < ·) ∧
      ∀ e ∈ o.ring, e.1 < 2^32) obscured sources) : List.Forall₂ ReadsBack obscured inputs := by
  simp only [setupInputs, bind_ok_iff, pure_ok_iff, Prod.mk.injEq] at h
  obtain ⟨all,hall,-,rfl,-⟩ := h
  obtain ⟨hlen,hzip⟩ := forall₂_iff_zip.1 hrings
  rw [← map_fst_zip hlen.le, forall₂_map_left_iff, forall₂_map_right_iff]
  refine (mapM_ok hall).imp fun io d hd => ?_
  obtain ⟨hasc,hfits⟩ := hzip hd.1
  exact setupInput_readsBack hd.2 hasc hfits

end Offsets

theorem prepareRingParticipants_ok {daemon : RingDaemon} {sources sorted : List OwnedSpendableInput}
    {mixin m : Nat} {obscured : List ObscuredInput}
    (h : prepareRingParticipants daemon sources mixin = .ok (obscured,sorted,m)) :
    sorted = sources.mergeSort byAmount ∧ m = mixin ∧
      ∃ fakeOuts, getRingParticipants daemon mixin sorted = .ok fakeOuts ∧
        sorted.zipIdx.mapM (fun si => obscureInput mixin (fakeOuts.getD si.2 []) si.1) =
          .ok obscured := by
  simp only [prepareRingParticipants, bind_ok_iff, pure_ok_iff, Prod.mk.injEq] at h
  obtain ⟨fakeOuts,hfake,result,hresult,rfl,rfl,rfl⟩ := h
  exact ⟨rfl,rfl,fakeOuts,hfake,hresult⟩

end Wallet

open Wallet

/-- The rings of a prepared send are of the asked size, ascending, with our own output where
they say it is, and the offsets written for them are read back as their indexes. -/
theorem rings_read_back (daemon : RingDaemon) (sources : List OwnedSpendableInput) (mixin : Nat)
    (hown : ∀ s ∈ sources, ∀ g, s.input.globalOutputIndex = some g → g < 2^32)
    (hanswer : ∀ response, daemon.randomOuts
      ((sources.mergeSort byAmount).map fun s => s.input.amount) (mixin+1) = .ok response →
      AscendingAnswer response)
    {obscured : List ObscuredInput} {sorted : List OwnedSpendableInput} {m : Nat}
    (h : prepareRingParticipants daemon sources mixin = .ok (obscured,sorted,m)) :
    sorted.Perm sources ∧ List.Forall₂ (RingFor mixin) obscured sorted ∧
      ∀ (cx : WalletCrypto) privateViewKey done inputs secrets,
        setupInputs cx obscured sorted privateViewKey = .ok (done,inputs,secrets) →
        List.Forall₂ ReadsBack obscured inputs := by
  obtain ⟨hsorted,-,fakeOuts,hfake,hobscured⟩ := prepareRingParticipants_ok h
  rw [← hsorted] at hanswer
  have hperm : sorted.Perm sources := hsorted ▸ List.mergeSort_perm sources byAmount
  have hrings : List.Forall₂ (fun o s => RingFor mixin o s ∧ ∀ e ∈ o.ring, e.1 < 2^32)
      obscured sorted := by
    rw [← List.zipIdx_map_fst 0 sorted, List.forall₂_map_right_iff]
    refine (mapM_ok hobscured).flip.imp fun o si ho => ?_
    have hmem : si.1 ∈ sources := hperm.subset (List.fst_mem_of_mem_zipIdx ho.1)
    exact obscureInput_ok ho.2 (getRingParticipants_decoySet hfake hanswer si.2) (hown _ hmem)
  refine ⟨hperm,hrings.imp fun o s ho => ho.1,?_⟩
  intro cx privateViewKey done inputs secrets hsetup
  exact setupInputs_readsBack hsetup (hrings.imp fun o s ho => ⟨ho.1.ascending,ho.2⟩)

def sampleRingDaemon : RingDaemon where
  randomOuts _ _ := .ok [⟨100,[3,7,9,12].map fun i => ⟨i,Hex32.toHex (ByteVec.zero 32)⟩⟩]
  notEnoughOutputs _ := none
  errorText _ := ""

def sampleOwnedInput : OwnedSpendableInput where
  publicSpendKey := ByteVec.zero 32
  privateSpendKey := ByteVec.zero 32
  input := ⟨100,5,some 7,ByteVec.zero 32,ByteVec.zero 32,ByteVec.zero 32,none,0,0,ByteVec.zero 32,0⟩

def sampleRing : ObscuredInput where
  amount := 100
  keyImage := ByteVec.zero 32
  ring := [3,7,9,12].map fun i => (i,ByteVec.zero 32)
  realOutput := 1
  privateEphemeral := ByteVec.zero 32
  ownerPublicSpendKey := ByteVec.zero 32

theorem sampleRing_prepared : prepareRingParticipants sampleRingDaemon [sampleOwnedInput] 3 =
    .ok ([sampleRing],[sampleOwnedInput],3) := by
  decide +kernel

theorem rings_read_back_sample :
    RingFor 3 sampleRing sampleOwnedInput ∧ relativeOffsets [3,7,9,12] = [3,4,2,3] := by
  have hown : ∀ s ∈ [sampleOwnedInput], ∀ g, s.input.globalOutputIndex = some g → g < 2^32 := by
    simp [sampleOwnedInput]
  have hanswer : ∀ response, sampleRingDaemon.randomOuts
      (([sampleOwnedInput].mergeSort byAmount).map fun s => s.input.amount) (3+1) = .ok response →
      AscendingAnswer response := by
    intro response hresponse
    cases hresponse
    simp [AscendingAnswer, Ascending]
  have hrings := rings_read_back sampleRingDaemon [sampleOwnedInput] 3 hown hanswer
    sampleRing_prepared
  exact ⟨(List.forall₂_cons.1 hrings.2.1).1,by decide⟩

end Wrkz
