import Wrkz.Node.PeerManager

/-!
Which addresses are dialled. An address is dialled when it is allowed and not banned,
but both tests read the address as it is written, and an IPv4 address can also be
written as an IPv6 one. The policy holds as long as no address comes in that form.
-/

set_option autoImplicit false

namespace Wrkz

open Library List

def Ipv4Addr.toIpv6Mapped (a : Ipv4Addr) : Ipv6Addr :=
  ⟨mappedOctets ++ a.bytes,by rw [List.length_append, a.length_eq]; rfl⟩

theorem Ipv6Addr.toIpv4Mapped_eq_some {a : Ipv6Addr} {b : Ipv4Addr} :
    a.toIpv4Mapped = some b ↔ a = Ipv4Addr.toIpv6Mapped b := by
  unfold Ipv6Addr.toIpv4Mapped
  constructor
  · intro h
    split at h
    case isTrue htake =>
      cases h
      refine ByteVec.ext ?_
      change a.bytes = mappedOctets ++ a.bytes.drop 12
      rw [← htake, take_append_drop]
    case isFalse => cases h
  · rintro rfl
    rfl

namespace IpAddr

def IsMapped (ip : IpAddr) : Prop := ∃ b : Ipv4Addr, ip = .v6 b.toIpv6Mapped

theorem toCanonical_mapped (b : Ipv4Addr) : toCanonical (.v6 b.toIpv6Mapped) = .v4 b := by
  simp only [toCanonical, Ipv6Addr.toIpv4Mapped_eq_some.2 rfl, Option.map_some, Option.getD_some]

variable {ip : IpAddr}

theorem toCanonical_of_not_mapped (h : ¬ ip.IsMapped) : ip.toCanonical = ip := by
  cases ip with
  | v4 a => rfl
  | v6 a =>
    cases hmap : a.toIpv4Mapped with
    | none => simp [toCanonical, hmap]
    | some b => exact (h ⟨b,by rw [Ipv6Addr.toIpv4Mapped_eq_some.1 hmap]⟩).elim

theorem isMapped_iff : ip.IsMapped ↔ ip.toCanonical ≠ ip := by
  constructor
  · rintro ⟨b,rfl⟩ h
    rw [toCanonical_mapped] at h
    cases h
  · intro h
    by_contra hnot
    exact h (toCanonical_of_not_mapped hnot)

instance (ip : IpAddr) : Decidable ip.IsMapped := decidable_of_iff _ isMapped_iff.symm

theorem not_isMapped_v4 (a : Ipv4Addr) : ¬ (IpAddr.v4 a).IsMapped := by
  rintro ⟨b,h⟩
  cases h

theorem toCanonical_eq_v4 {a : Ipv4Addr} :
    ip.toCanonical = .v4 a ↔ ip = .v4 a ∨ ip = .v6 a.toIpv6Mapped := by
  constructor
  · intro h
    by_cases hm : ip.IsMapped
    · obtain ⟨b,rfl⟩ := hm
      rw [toCanonical_mapped] at h
      cases h
      exact .inr rfl
    · rw [toCanonical_of_not_mapped hm] at h
      exact .inl h
  · rintro (rfl | rfl)
    · rfl
    · exact toCanonical_mapped a

theorem eq_of_toCanonical_v6 {a : Ipv6Addr} (h : ip.toCanonical = .v6 a) : ip = .v6 a := by
  by_cases hm : ip.IsMapped
  · obtain ⟨b,rfl⟩ := hm
    rw [toCanonical_mapped] at h
    cases h
  · rwa [toCanonical_of_not_mapped hm] at h

def isLocal : IpAddr → Bool
  | .v4 a => a.isLoopback || a.isPrivate || a.isLinkLocal
  | .v6 a => a.isLoopback || a.isLocalRange

end IpAddr

theorem isLocal_eq_false_of_ipAllowed {ip : IpAddr} (h : ipAllowed ip false = true) :
    ip.isLocal = false := by
  cases ip with
  | v4 a =>
    simp only [ipAllowed, Bool.if_false_left, Bool.and_eq_true, Bool.not_eq_true',
      decide_eq_false_iff_not, Bool.or_eq_true, Bool.false_or, Bool.or_eq_false_iff] at h
    simp_all [IpAddr.isLocal]
  | v6 a =>
    simp only [ipAllowed, Bool.if_false_left, Bool.and_eq_true, Bool.not_eq_true',
      decide_eq_false_iff_not, Bool.or_eq_true, Bool.false_or] at h
    simp_all [IpAddr.isLocal]

namespace ListEntry

variable {n : Nat} {e x : ListEntry n} {l : List (ListEntry n)}

theorem ip_of_socketAddrWith {family : ByteVec n → IpAddr} {a : SocketAddr}
    (h : e.socketAddrWith family = some a) : a.ip = family e.ip := by
  unfold socketAddrWith at h
  split at h
  · cases h
    rfl
  · cases h

theorem mem_upsert (h : x ∈ e.upsert l) : x = e ∨ x ∈ l := by
  induction l with
  | nil => exact .inl (mem_singleton.1 h)
  | cons f l ih =>
    unfold upsert at h
    split at h
    case isTrue =>
      rcases mem_cons.1 h with rfl | hx
      · exact .inl rfl
      · exact .inr (.tail _ hx)
    case isFalse =>
      rcases mem_cons.1 h with rfl | hx
      · exact .inr (.head _)
      · exact (ih hx).imp_right (.tail _)

theorem mem_trim {max : Nat} (h : x ∈ trim l max) : x ∈ l := by
  unfold trim at h
  split at h
  case isTrue => exact h
  case isFalse => exact mem_mergeSort.1 (mem_of_mem_take h)

end ListEntry

section Merge

variable {n : Nat} {family : ByteVec n → IpAddr} {allowLocal : Bool} {white : List (ListEntry n)}
  {gray : List (ListEntry n)} {x : ListEntry n}

theorem mem_grayWith {e : ListEntry n} (h : x ∈ grayWith family allowLocal white gray e) :
    x = e ∨ x ∈ gray := by
  unfold grayWith at h
  split at h
  · exact .inr h
  · split at h
    · exact .inr h
    · exact ListEntry.mem_upsert h

theorem mem_mergeLoop {perGroup : NetGroup → Nat} {entries : List (ListEntry n)}
    (h : x ∈ mergeLoop family allowLocal white gray perGroup entries) : x ∈ entries ∨ x ∈ gray := by
  induction entries generalizing gray perGroup with
  | nil => exact .inr h
  | cons e rest ih =>
    have hstep : ∀ counts, x ∈ mergeLoop family allowLocal white
        (grayWith family allowLocal white gray e) counts rest → x ∈ e :: rest ∨ x ∈ gray := by
      intro counts hx
      rcases ih hx with hrest | hgray
      · exact .inl (.tail _ hrest)
      · rcases mem_grayWith hgray with rfl | hold
        · exact .inl (.head _)
        · exact .inr hold
    simp only [mergeLoop] at h
    split at h
    · exact hstep _ h
    · split at h
      · exact (ih h).imp_left (.tail _)
      · exact hstep _ h

end Merge

namespace PeerManager

variable {m : PeerManager} {now : Nat}

def listed (m : PeerManager) : List SocketAddr := m.whiteAddresses ++ m.grayAddresses ++ m.seeds

variable {a : SocketAddr} {want : Nat} {seed : UInt64} {ip : IpAddr}

theorem mem_cons_or_of_append {src out : List SocketAddr} {b : SocketAddr}
    (h : a ∈ src ∨ a ∈ out ++ [b]) : a ∈ b :: src ∨ a ∈ out := by
  simp only [mem_append, mem_cons, not_mem_nil, or_false] at h ⊢
  tauto

theorem mem_takeFrom {limit : Nat} {src : List SocketAddr}
    {picked : List SocketAddr × List NetGroup}
    (h : a ∈ (takeFrom limit src picked).1) : a ∈ src ∨ a ∈ picked.1 := by
  induction src generalizing picked with
  | nil => exact .inr h
  | cons b src ih =>
    obtain ⟨out,groups⟩ := picked
    unfold takeFrom at h
    split at h
    · exact .inr h
    · split at h
      · exact (ih h).imp_left (.tail _)
      · exact mem_cons_or_of_append (ih h)

theorem mem_takeSeeds {src out : List SocketAddr}
    (h : a ∈ takeSeeds want src out) : a ∈ src ∨ a ∈ out := by
  induction src generalizing out with
  | nil => exact .inr h
  | cons b src ih =>
    unfold takeSeeds at h
    split at h
    · exact .inr h
    · split at h
      · exact (ih h).imp_left (.tail _)
      · exact mem_cons_or_of_append (ih h)

theorem mem_pickFrom {white gray : List SocketAddr} {groups : List NetGroup}
    (h : a ∈ pickFrom want white gray groups) : a ∈ white ∨ a ∈ gray := by
  rcases mem_takeFrom h with hwhite | hpicked
  · exact .inl hwhite
  · rcases mem_takeFrom hpicked with hgray | hpicked
    · exact .inr hgray
    · rcases mem_takeFrom hpicked with hwhite | hnil
      · exact .inl hwhite
      · cases hnil

theorem mem_shuffle_filter {p : SocketAddr → Bool} {l : List SocketAddr} :
    a ∈ (shuffle rngNext seed (l.filter p)).1 ↔ a ∈ l ∧ p a = true := by
  rw [(shuffle_perm _ _ _).mem_iff, mem_filter]

theorem mem_listed : a ∈ m.listed ↔ a ∈ m.whiteAddresses ∨ a ∈ m.grayAddresses ∨ a ∈ m.seeds := by
  rw [listed, mem_append, mem_append, or_assoc]

theorem mem_dialCandidatesFor {busy outbound : List SocketAddr}
    (h : a ∈ m.dialCandidatesFor seed now want busy outbound) :
    a ∈ m.listed ∧ m.dialable now a busy = true := by
  have hpicked : ∀ {s s' : UInt64} {groups : List NetGroup}, a ∈ pickFrom want
      (shuffle rngNext s (m.whiteAddresses.filter fun a => m.dialable now a busy)).1
      (shuffle rngNext s' (m.grayAddresses.filter fun a => m.dialable now a busy)).1 groups →
      a ∈ m.listed ∧ m.dialable now a busy = true := by
    intro s s' groups hpick
    rcases mem_pickFrom hpick with hwhite | hgray
    · have := mem_shuffle_filter.1 hwhite
      exact ⟨mem_listed.2 (.inl this.1),this.2⟩
    · have := mem_shuffle_filter.1 hgray
      exact ⟨mem_listed.2 (.inr (.inl this.1)),this.2⟩
  unfold dialCandidatesFor at h
  split at h
  · cases h
  · dsimp only at h
    split at h
    · rcases mem_takeSeeds h with hseed | hout
      · have := mem_shuffle_filter.1 hseed
        exact ⟨mem_listed.2 (.inr (.inr this.1)),this.2⟩
      · exact hpicked hout
    · exact hpicked h

section OnlyOne

variable {a : SocketAddr} {src white gray : List SocketAddr}

theorem takeFrom_full {groups : List NetGroup} : takeFrom 1 src ([a],groups) = ([a],groups) := by
  cases src with
  | nil => rfl
  | cons c src => simp [takeFrom]

theorem takeFrom_cons : takeFrom 1 (a :: src) ([],[]) = ([a],[netGroup a.ip]) := by
  simp [takeFrom, takeFrom_full]

theorem pickFrom_only (hwhite : ∀ b ∈ white, b = a) (hgray : ∀ b ∈ gray, b = a)
    (h : a ∈ white ∨ a ∈ gray) : pickFrom 1 white gray [] = [a] := by
  have htarget : min ((1 * whitePercent + 99) / 100) 1 = 1 := by decide
  simp only [pickFrom, htarget]
  cases white with
  | cons b white =>
    cases hwhite b (.head _)
    simp only [takeFrom_cons, takeFrom_full]
  | nil =>
    cases gray with
    | nil => simp at h
    | cons b gray =>
      cases hgray b (.head _)
      have hnil : takeFrom 1 [] ([],[]) = ([],[]) := rfl
      simp only [hnil, takeFrom_cons, takeFrom_full]

theorem takeSeeds_only (hsrc : ∀ b ∈ src, b = a) (h : a ∈ src) : takeSeeds 1 src [] = [a] := by
  cases src with
  | nil => cases h
  | cons b src =>
    cases hsrc b (.head _)
    cases src with
    | nil => rfl
    | cons c src => simp [takeSeeds]

theorem pickFrom_nil : pickFrom 1 [] [] [] = [] := rfl

/-- An address that passes the tests is picked by some call: the one made when every
other address is busy. -/
theorem exists_mem_dialCandidatesFor (hlisted : a ∈ m.listed) (hopen : m.dialable now a [] = true) :
    ∃ busy, ∀ seed, a ∈ m.dialCandidatesFor seed now 1 busy [] := by
  set busy := m.listed.filter fun b => b ≠ a with hbusy
  have hself : m.dialable now a busy = true := by
    simp only [dialable, contains_nil, Bool.not_false, Bool.true_and] at hopen
    have hfree : busy.contains a = false := by simp [hbusy]
    simp only [dialable, hfree, Bool.not_false, Bool.true_and]
    exact hopen
  have hothers : ∀ b ∈ m.listed, m.dialable now b busy = true → b = a := by
    intro b hb hdial
    by_contra hne
    have hin : busy.contains b = true := by
      simp [hbusy, hb, hne]
    simp only [dialable, hin, Bool.not_true, Bool.false_and] at hdial
    cases hdial
  refine ⟨busy,fun seed => ?_⟩
  simp only [dialCandidatesFor, one_ne_zero, if_false, map_nil]
  set p := fun a => m.dialable now a busy with hp
  set white := shuffle rngNext seed (m.whiteAddresses.filter p)
  set gray := shuffle rngNext white.2 (m.grayAddresses.filter p)
  have honlyWhite : ∀ b ∈ white.1, b = a := by
    intro b hb
    have := mem_shuffle_filter.1 hb
    exact hothers b (mem_listed.2 (.inl this.1)) this.2
  have honlyGray : ∀ b ∈ gray.1, b = a := by
    intro b hb
    have := mem_shuffle_filter.1 hb
    exact hothers b (mem_listed.2 (.inr (.inl this.1))) this.2
  by_cases hin : a ∈ white.1 ∨ a ∈ gray.1
  · rw [pickFrom_only honlyWhite honlyGray hin]
    simp
  · rw [not_or] at hin
    have hwhite : white.1 = [] := eq_nil_iff_forall_not_mem.2 fun b hb =>
      hin.1 (honlyWhite b hb ▸ hb)
    have hgray : gray.1 = [] := eq_nil_iff_forall_not_mem.2 fun b hb =>
      hin.2 (honlyGray b hb ▸ hb)
    have hseed : a ∈ m.seeds := by
      rcases mem_listed.1 hlisted with h | h | h
      · exact (hin.1 (mem_shuffle_filter.2 ⟨h,hself⟩)).elim
      · exact (hin.2 (mem_shuffle_filter.2 ⟨h,hself⟩)).elim
      · exact h
    rw [hwhite, hgray, pickFrom_nil]
    have honlySeeds : ∀ b ∈ (shuffle rngNext gray.2 (m.seeds.filter p)).1, b = a := by
      intro b hb
      have := mem_shuffle_filter.1 hb
      exact hothers b (mem_listed.2 (.inr (.inr this.1))) this.2
    simp only [length_nil, Nat.lt_one_iff, if_true]
    rw [takeSeeds_only honlySeeds (mem_shuffle_filter.2 ⟨hseed,hself⟩)]
    exact .head _

end OnlyOne

def Outlawed (m : PeerManager) (now : Nat) (ip : IpAddr) : Prop :=
  ∃ other : IpAddr, other.toCanonical = ip.toCanonical ∧ m.isBanned now other = true

/-- No call hands out an address that is, as an IPv4 address where it is one, local or
banned. -/
def DialPolicy (m : PeerManager) (now : Nat) : Prop :=
  ∀ (seed : UInt64) (want : Nat) (busy outbound : List SocketAddr),
    ∀ a ∈ m.dialCandidatesFor seed now want busy outbound,
      a.ip.toCanonical.isLocal = false ∧ ¬ m.Outlawed now a.ip

/-- The two forms of an IPv4 address hide one another: the IPv6 form of a local or
banned address, and the address itself when its IPv6 form is banned. -/
def Hidden (m : PeerManager) (now : Nat) (ip : IpAddr) : Prop :=
  (∃ b : Ipv4Addr, ip = .v6 b.toIpv6Mapped ∧
    ((IpAddr.v4 b).isLocal = true ∨ m.isBanned now (.v4 b) = true)) ∨
  ∃ b : Ipv4Addr, ip = .v4 b ∧ m.isBanned now (.v6 b.toIpv6Mapped) = true

theorem dialable_iff {busy : List SocketAddr} :
    m.dialable now a busy = true ↔ a ∉ busy ∧ m.isBanned now a.ip = false ∧
      (m.failed.lookup a).any (fun ends => now < ends) = false ∧
      ipAllowed a.ip m.allowLocalIp = true := by
  simp [dialable, and_assoc]

theorem hidden_mapped_iff {b : Ipv4Addr} (hban : m.isBanned now (.v6 b.toIpv6Mapped) = false) :
    m.Hidden now (.v6 b.toIpv6Mapped) ↔
      (IpAddr.v4 b).isLocal = true ∨ m.Outlawed now (.v6 b.toIpv6Mapped) := by
  constructor
  · rintro (⟨c,hc,hcase⟩ | ⟨c,hc,-⟩)
    · have hcb : IpAddr.v4 b = .v4 c := by
        rw [← IpAddr.toCanonical_mapped, hc, IpAddr.toCanonical_mapped]
      cases hcb
      refine hcase.imp_right fun hbanned => ⟨.v4 b,?_,hbanned⟩
      rw [IpAddr.toCanonical_mapped]
      rfl
    · cases hc
  · rintro (hlocal | ⟨other,hother,hbanned⟩)
    · exact .inl ⟨b,rfl,.inl hlocal⟩
    · rw [IpAddr.toCanonical_mapped, IpAddr.toCanonical_eq_v4] at hother
      rcases hother with rfl | rfl
      · exact .inl ⟨b,rfl,.inr hbanned⟩
      · rw [hban] at hbanned
        cases hbanned

theorem hidden_unmapped_iff (hmapped : ¬ ip.IsMapped)
    (hban : m.isBanned now ip = false) : m.Hidden now ip ↔ m.Outlawed now ip := by
  constructor
  · rintro (⟨b,rfl,-⟩ | ⟨b,rfl,hbanned⟩)
    · exact (hmapped ⟨b,rfl⟩).elim
    · exact ⟨.v6 b.toIpv6Mapped,IpAddr.toCanonical_mapped b,hbanned⟩
  · rintro ⟨other,hother,hbanned⟩
    rw [IpAddr.toCanonical_of_not_mapped hmapped] at hother
    have hne : other ≠ ip := by
      rintro rfl
      rw [hban] at hbanned
      cases hbanned
    cases ip with
    | v4 b =>
      rcases IpAddr.toCanonical_eq_v4.1 hother with h | rfl
      · exact (hne h).elim
      · exact .inr ⟨b,rfl,hbanned⟩
    | v6 a => exact (hne (IpAddr.eq_of_toCanonical_v6 hother)).elim

/-- An address that passes the tests is against the policy exactly when its other form
hides it. -/
theorem hidden_iff (hallowed : ipAllowed ip false = true) (hban : m.isBanned now ip = false) :
    m.Hidden now ip ↔ ip.toCanonical.isLocal = true ∨ m.Outlawed now ip := by
  by_cases hmapped : ip.IsMapped
  · obtain ⟨b,rfl⟩ := hmapped
    rw [IpAddr.toCanonical_mapped]
    exact hidden_mapped_iff hban
  · rw [hidden_unmapped_iff hmapped hban, IpAddr.toCanonical_of_not_mapped hmapped,
      isLocal_eq_false_of_ipAllowed hallowed]
    simp

/-- No address that would be dialled hides behind its other form. -/
def NoneHidden (m : PeerManager) (now : Nat) : Prop :=
  ∀ a ∈ m.listed, m.dialable now a [] = true → ¬ m.Hidden now a.ip

theorem dialPolicy_iff (hlocal : m.allowLocalIp = false) : m.DialPolicy now ↔ m.NoneHidden now := by
  have hclean : ∀ {a : SocketAddr} {busy : List SocketAddr}, m.dialable now a busy = true →
      (¬ m.Hidden now a.ip ↔ a.ip.toCanonical.isLocal = false ∧ ¬ m.Outlawed now a.ip) := by
    intro a busy h
    have htests := dialable_iff.1 h
    rw [hlocal] at htests
    rw [hidden_iff htests.2.2.2 htests.2.1, not_or, Bool.not_eq_true]
  constructor
  · intro h a hlisted hopen
    obtain ⟨busy,hpicked⟩ := exists_mem_dialCandidatesFor hlisted hopen
    exact (hclean hopen).2 (h 0 1 busy [] a (hpicked 0))
  · intro h seed want busy outbound a ha
    obtain ⟨hlisted,hdial⟩ := mem_dialCandidatesFor ha
    have htests := dialable_iff.1 hdial
    exact (hclean hdial).1 (h a hlisted (dialable_iff.2 ⟨not_mem_nil,htests.2⟩))

end PeerManager

/-- What happens to a peer manager. The instants and the times are those the clocks
show when it happens. -/
inductive PeerStep where
  | mergePeerlist (entries : List PeerlistEntry) (senderLocalTime now : Nat)
  | mergePeerlist6 (entries : List PeerlistEntry6) (now : Nat)
  | penalise (ip : IpAddr) (points now : Nat)
  | ban (ip : IpAddr) (seconds now : Nat)
  | unban (ip : IpAddr)
  | setPeerJustSeen (peerId : Nat) (addr : SocketAddr) (now : Nat)
  | addCommandLinePeer (addr : SocketAddr) (id : Nat)
  | setSeeds (seeds : List SocketAddr)
  | noteDialFailure (addr : SocketAddr) (now : Nat)
  | expire (now : Nat)

namespace PeerStep

def run (m : PeerManager) : PeerStep → PeerManager
  | mergePeerlist entries senderLocalTime now => (m.mergePeerlist entries senderLocalTime now).2
  | mergePeerlist6 entries now => m.mergePeerlist6 entries now
  | penalise ip points now => (m.penalise ip points now).2
  | ban ip seconds now => m.ban ip seconds now
  | unban ip => m.unban ip
  | setPeerJustSeen peerId addr now => m.setPeerJustSeen peerId addr now
  | addCommandLinePeer addr id => m.addCommandLinePeer addr id
  | setSeeds seeds => m.setSeeds seeds
  | noteDialFailure addr now => m.noteDialFailure addr now
  | expire now => m.expire now

def Plain : PeerStep → Prop
  | mergePeerlist6 entries _ => ∀ e ∈ entries, ¬ (IpAddr.v6 e.ip).IsMapped
  | penalise ip _ _ | ban ip _ _ => ¬ ip.IsMapped
  | setPeerJustSeen _ addr _ | addCommandLinePeer addr _ => ¬ addr.ip.IsMapped
  | setSeeds seeds => ∀ a ∈ seeds, ¬ a.ip.IsMapped
  | _ => True

end PeerStep

namespace PeerManager

def runSteps (m : PeerManager) (steps : List PeerStep) : PeerManager :=
  steps.foldl PeerStep.run m

/-- No address the manager keeps is an IPv4 address in its IPv6 form. -/
structure Plain (m : PeerManager) : Prop where
  local_off : m.allowLocalIp = false
  white6 : ∀ e ∈ m.white6, ¬ (IpAddr.v6 e.ip).IsMapped
  gray6 : ∀ e ∈ m.gray6, ¬ (IpAddr.v6 e.ip).IsMapped
  seeds : ∀ a ∈ m.seeds, ¬ a.ip.IsMapped
  banned : ∀ ip ∈ m.banned, ¬ ip.IsMapped

theorem mem_of_isBanned {m : PeerManager} {now : Nat} {ip : IpAddr}
    (h : m.isBanned now ip = true) : ip ∈ m.banned := by
  obtain ⟨hends,-⟩ := (Option.any_eq_true_iff_get _ _).1 h
  exact AList.lookup_isSome.1 hends

namespace Plain

variable {m : PeerManager}

theorem new : (PeerManager.new false).Plain where
  local_off := rfl
  white6 _ h := by cases h
  gray6 _ h := by cases h
  seeds _ h := by cases h
  banned _ h := by cases h

section

variable (h : m.Plain)
include h

theorem listed {a : SocketAddr} (ha : a ∈ m.listed) : ¬ a.ip.IsMapped := by
  have hlist : ∀ {l : List PeerlistEntry} {l6 : List PeerlistEntry6},
      (∀ e ∈ l6, ¬ (IpAddr.v6 e.ip).IsMapped) →
      a ∈ l.filterMap socketAddrOf ++ l6.filterMap socketAddrOf6 → ¬ a.ip.IsMapped := by
    intro l l6 hl6 hmem
    rcases mem_append.1 hmem with h4 | h6
    · obtain ⟨e,-,he⟩ := mem_filterMap.1 h4
      rw [ListEntry.ip_of_socketAddrWith he]
      exact IpAddr.not_isMapped_v4 _
    · obtain ⟨e,hin,he⟩ := mem_filterMap.1 h6
      rw [ListEntry.ip_of_socketAddrWith he]
      exact hl6 e hin
  rcases mem_listed.1 ha with hw | hg | hs
  · exact hlist h.white6 hw
  · exact hlist h.gray6 hg
  · exact h.seeds a hs

theorem noneHidden (now : Nat) : m.NoneHidden now := by
  rintro a ha - (⟨b,hb,-⟩ | ⟨b,-,hbanned⟩)
  · exact h.listed ha ⟨b,hb⟩
  · exact h.banned (.v6 b.toIpv6Mapped) (mem_of_isBanned hbanned) ⟨b,rfl⟩

theorem trimWhite : m.trimWhite.Plain :=
  { h with white6 := fun e he => h.white6 e (ListEntry.mem_trim he) }

theorem trimGray : m.trimGray.Plain :=
  { h with gray6 := fun e he => h.gray6 e (ListEntry.mem_trim he) }

theorem appendWhite (entry : PeerlistEntry) : (m.appendWhite entry).Plain := by
  have hput : { m with white := entry.upsert m.white }.Plain := { h with }
  unfold PeerManager.appendWhite
  split
  · exact h
  · dsimp only
    split
    · exact { hput with }
    · exact { hput.trimWhite with }

theorem appendWhite6 {entry : PeerlistEntry6}
    (hentry : ¬ (IpAddr.v6 entry.ip).IsMapped) : (m.appendWhite6 entry).Plain := by
  have hput : { m with white6 := entry.upsert m.white6 }.Plain :=
    { h with
      white6 := fun e he => by
        rcases ListEntry.mem_upsert he with rfl | hold
        · exact hentry
        · exact h.white6 e hold }
  unfold PeerManager.appendWhite6
  split
  · exact h
  · dsimp only
    split
    · exact { hput with gray6 := fun e he => hput.gray6 e (mem_of_mem_filter he) }
    · exact { hput.trimWhite with
        gray6 := fun e he => hput.trimWhite.gray6 e (mem_of_mem_filter he) }

theorem mergePeerlist (entries : List PeerlistEntry) (senderLocalTime now : Nat) :
    (m.mergePeerlist entries senderLocalTime now).2.Plain := by
  unfold PeerManager.mergePeerlist
  dsimp only
  split
  · exact h
  · refine trimGray ?_
    exact { h with }

theorem mergePeerlist6 {entries : List PeerlistEntry6} (now : Nat)
    (hentries : ∀ e ∈ entries, ¬ (IpAddr.v6 e.ip).IsMapped) :
    (m.mergePeerlist6 entries now).Plain := by
  refine trimGray { h with gray6 := fun e he => ?_ }
  rcases mem_mergeLoop he with hnew | hold
  · obtain ⟨f,hf,rfl⟩ := mem_map.1 hnew
    exact hentries f (mem_of_mem_take hf)
  · exact h.gray6 e hold

end

variable {addr : SocketAddr} {ip : IpAddr}

variable (h : m.Plain)
include h

theorem ban (hip : ¬ ip.IsMapped) (seconds now : Nat) : (m.ban ip seconds now).Plain :=
  { h with
    banned := fun other hother => by
      rcases (AList.mem_insert _).1 hother with rfl | hold
      · exact hip
      · exact h.banned other hold }

theorem penalise (hip : ¬ ip.IsMapped) (points now : Nat) : (m.penalise ip points now).2.Plain := by
  unfold PeerManager.penalise
  dsimp only
  split
  · exact { h with }
  · refine ban ?_ hip _ _
    exact { h with }

theorem unban (ip : IpAddr) : (m.unban ip).Plain :=
  { h with banned := fun other hother => h.banned other (AList.mem_erase.1 hother).2 }

theorem expire (now : Nat) : (m.expire now).Plain :=
  { h with banned := fun ip hip => h.banned ip (mem_of_mem_retain hip) }

theorem addCommandLinePeer (haddr : ¬ addr.ip.IsMapped)
    (id : Nat) : (m.addCommandLinePeer addr id).Plain := by
  obtain ⟨ip,port⟩ := addr
  cases ip with
  | v4 ip =>
    simp only [PeerManager.addCommandLinePeer]
    split
    · exact h
    · exact h.appendWhite _
  | v6 ip =>
    simp only [PeerManager.addCommandLinePeer]
    split
    · exact h
    · exact h.appendWhite6 haddr

theorem setPeerJustSeen (peerId : Nat)
    (haddr : ¬ addr.ip.IsMapped) (now : Nat) : (m.setPeerJustSeen peerId addr now).Plain := by
  obtain ⟨ip,port⟩ := addr
  cases ip with
  | v4 ip => exact { h.appendWhite ⟨ip,port,peerId,now⟩ with }
  | v6 ip =>
    have hseen : (m.appendWhite6 ⟨ip,port,peerId,now⟩).Plain := h.appendWhite6 haddr
    exact { hseen with }

theorem step {step : PeerStep} (hstep : step.Plain) : (step.run m).Plain := by
  cases step with
  | mergePeerlist entries senderLocalTime now => exact h.mergePeerlist entries senderLocalTime now
  | mergePeerlist6 entries now => exact h.mergePeerlist6 now hstep
  | penalise ip points now => exact h.penalise hstep points now
  | ban ip seconds now => exact h.ban hstep seconds now
  | unban ip => exact h.unban ip
  | setPeerJustSeen peerId addr now => exact h.setPeerJustSeen peerId hstep now
  | addCommandLinePeer addr id => exact h.addCommandLinePeer hstep id
  | setSeeds seeds => exact { h with seeds := hstep }
  | noteDialFailure addr now => exact { h with }
  | expire now => exact h.expire now

theorem runSteps {steps : List PeerStep} (hsteps : ∀ step ∈ steps, step.Plain) :
    (m.runSteps steps).Plain := by
  induction steps generalizing m with
  | nil => exact h
  | cons step steps ih =>
    exact ih (h.step (hsteps step (.head _))) fun s hs => hsteps s (.tail _ hs)

end Plain

theorem appendWhite_allowLocalIp (m : PeerManager) (entry : PeerlistEntry) :
    (m.appendWhite entry).allowLocalIp = m.allowLocalIp := by
  unfold appendWhite
  split
  · rfl
  · dsimp only
    split <;> rfl

theorem appendWhite6_allowLocalIp (m : PeerManager) (entry : PeerlistEntry6) :
    (m.appendWhite6 entry).allowLocalIp = m.allowLocalIp := by
  unfold appendWhite6
  split
  · rfl
  · dsimp only
    split <;> rfl

theorem run_allowLocalIp (m : PeerManager) (step : PeerStep) :
    (step.run m).allowLocalIp = m.allowLocalIp := by
  cases step with
  | mergePeerlist entries senderLocalTime now =>
    simp only [PeerStep.run, mergePeerlist]
    split <;> rfl
  | penalise ip points now =>
    simp only [PeerStep.run, penalise]
    split <;> rfl
  | setPeerJustSeen peerId addr now =>
    obtain ⟨ip,port⟩ := addr
    cases ip with
    | v4 ip => exact appendWhite_allowLocalIp _ _
    | v6 ip => exact appendWhite6_allowLocalIp _ _
  | addCommandLinePeer addr id =>
    obtain ⟨ip,port⟩ := addr
    cases ip with
    | v4 ip =>
      simp only [PeerStep.run, addCommandLinePeer]
      split
      · rfl
      · exact appendWhite_allowLocalIp _ _
    | v6 ip =>
      simp only [PeerStep.run, addCommandLinePeer]
      split
      · rfl
      · exact appendWhite6_allowLocalIp _ _
  | _ => rfl

theorem runSteps_allowLocalIp (m : PeerManager) (steps : List PeerStep) :
    (m.runSteps steps).allowLocalIp = m.allowLocalIp := by
  induction steps generalizing m with
  | nil => rfl
  | cons step steps ih => exact (ih _).trans (run_allowLocalIp m step)

end PeerManager

open PeerManager

/-- In every state of every run: the policy is kept exactly when no address that would
be dialled hides behind its other form, and it is kept when no address came in its
IPv6 form. -/
theorem dial_policy (steps : List PeerStep) (now : Nat) :
    (((new false).runSteps steps).DialPolicy now ↔ ((new false).runSteps steps).NoneHidden now) ∧
    ((∀ step ∈ steps, step.Plain) → ((new false).runSteps steps).DialPolicy now) := by
  have hexact : ((new false).runSteps steps).DialPolicy now ↔ _ :=
    dialPolicy_iff (runSteps_allowLocalIp (new false) steps)
  exact ⟨hexact,fun hsteps => hexact.2 ((Plain.new.runSteps hsteps).noneHidden now)⟩

def sampleMapped (octets : ByteVec 4) : PeerlistEntry6 :=
  ⟨Ipv4Addr.toIpv6Mapped octets,17855,1,0⟩

def sampleLoopback : Ipv4Addr := ⟨[127,0,0,1],rfl⟩

def samplePeer : Ipv4Addr := ⟨[1,2,3,4],rfl⟩

def samplePeerSteps : List PeerStep :=
  [.mergePeerlist [⟨samplePeer,17855,1,0⟩,⟨⟨[5,6,7,8],rfl⟩,17855,2,0⟩] 10 10,
    .penalise (.v4 samplePeer) banThreshold 0]

theorem dial_policy_sample :
    ((new false).runSteps samplePeerSteps).dialCandidatesFor 0 1 8 [] [] =
      [⟨.v4 ⟨[5,6,7,8],rfl⟩,17855⟩] ∧ ((new false).runSteps samplePeerSteps).DialPolicy 1 := by
  refine ⟨by decide +kernel,(dial_policy samplePeerSteps 1).2 ?_⟩
  intro step hstep
  simp only [samplePeerSteps, List.mem_cons, List.not_mem_nil, or_false] at hstep
  rcases hstep with rfl | rfl
  · trivial
  · exact IpAddr.not_isMapped_v4 _

/-- A peer that lists `::ffff:127.0.0.1` is dialled back on the node itself, and one
banned by its IPv4 address is dialled by its IPv6 form. -/
theorem mapped_address_dialled :
    (∃ a ∈ ((new false).runSteps [.mergePeerlist6 [sampleMapped sampleLoopback] 0]).dialCandidatesFor
      0 0 8 [] [], a.ip.toCanonical.isLocal = true) ∧
    ∃ a ∈ ((new false).runSteps [.ban (.v4 samplePeer) 900 0,
      .mergePeerlist6 [sampleMapped samplePeer] 0]).dialCandidatesFor 0 0 8 [] [],
      ((new false).runSteps [.ban (.v4 samplePeer) 900 0,
        .mergePeerlist6 [sampleMapped samplePeer] 0]).isBanned 0 a.ip.toCanonical = true := by
  decide +kernel

end Wrkz
