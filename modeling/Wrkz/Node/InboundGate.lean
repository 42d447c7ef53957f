import Wrkz.Library.Tally
import Wrkz.Node.PeerManager

/-!
The admission of inbound connections. An admission reads the shared ban list first and
takes the lock of the counts after, so other admissions, drops and changes of the ban list
may come between the two.
-/

set_option autoImplicit false

namespace Wrkz

open Library List

def IpAddr.isLoopback : IpAddr → Bool
  | .v4 a => a.isLoopback
  | .v6 a => a.isLoopback

/-- A limit of 0 is no limit, except for the total. -/
structure InboundLimits where
  total : Nat
  perIp : Nat
  perGroup : Nat
  deriving DecidableEq, Repr

structure GateCounts where
  total : Nat
  byIp : Tally IpAddr
  byGroup : Tally NetGroup

abbrev BanList := AList (fun _ : IpAddr => Nat)

def BanList.isBanned (bans : BanList) (now : Nat) (ip : IpAddr) : Bool :=
  (bans.lookup ip).any fun ends => now < ends

/-- The gate, with the calls that passed the ban check and wait for the lock and with the
slots alive. -/
structure InboundGate where
  limits : InboundLimits
  bans : BanList
  counts : GateCounts
  waiting : List IpAddr
  slots : List IpAddr

namespace InboundGate

def new (limits : InboundLimits) (bans : BanList) : InboundGate := ⟨limits,bans,⟨0,∅,∅⟩,[],[]⟩

variable (g : InboundGate)

/-- `admit` up to the lock. -/
def checkBan (now : Nat) (ip : IpAddr) : Except String IpAddr :=
  let ip := ip.toCanonical
  if g.bans.isBanned now ip then .error "banned" else .ok ip

def isOver (limit n : Nat) : Bool := limit ≠ 0 ∧ limit ≤ n

def admitted (ip : IpAddr) : InboundGate :=
  let group := netGroup ip
  { g with
    counts := ⟨g.counts.total+1,g.counts.byIp.add ip,g.counts.byGroup.add group⟩
    slots := ip :: g.slots }

/-- `admit` under the lock. -/
def admitLocked (ip : IpAddr) : Except String InboundGate :=
  let group := netGroup ip
  let c := g.counts
  let total := g.limits.total
  let perIp := g.limits.perIp
  let perGroup := g.limits.perGroup
  if total ≤ c.total then .error s!"inbound connection limit {total} reached"
  -- everything on this host shares one address
  else if !ip.isLoopback && isOver perIp (c.byIp.at' ip) then
    .error s!"{perIp} connections from this address already"
  else if !ip.isLoopback && isOver perGroup (c.byGroup.at' group) then
    .error s!"{perGroup} connections from this network group already"
  else .ok (g.admitted ip)

def admitAddress (now : Nat) (ip : IpAddr) : Except String InboundGate :=
  (g.checkBan now ip).bind g.admitLocked

/-- The drop of the slot at position `i` of those alive. -/
def dropSlot (i : Nat) : InboundGate :=
  match g.slots[i]? with
  | none => g
  | some ip =>
    let group := netGroup ip
    { g with
      counts := ⟨g.counts.total-1,g.counts.byIp.remove ip,g.counts.byGroup.remove group⟩
      slots := g.slots.eraseIdx i }

end InboundGate

inductive GateEvent where
  | check (now : Nat) (ip : IpAddr)
  | locked (i : Nat)
  | drop (i : Nat)
  | ban (ip : IpAddr) (ends : Nat)
  | unban (ip : IpAddr)
  | expire (now : Nat)
  deriving DecidableEq, Repr

namespace InboundGate

def step (g : InboundGate) : GateEvent → InboundGate
  | .check now ip =>
    match g.checkBan now ip with
    | .error _ => g
    | .ok ip => { g with waiting := g.waiting ++ [ip] }
  | .locked i =>
    match g.waiting[i]? with
    | none => g
    | some ip =>
      let g := { g with waiting := g.waiting.eraseIdx i }
      match g.admitLocked ip with
      | .error _ => g
      | .ok g => g
  | .drop i => g.dropSlot i
  | .ban ip ends => { g with bans := g.bans.insert ip ends }
  | .unban ip => { g with bans := g.bans.erase ip }
  | .expire now => { g with bans := retain (fun _ ends => now < ends) g.bans }

def run (g : InboundGate) (events : List GateEvent) : InboundGate := events.foldl step g

variable {g g' : InboundGate} {limits : InboundLimits} {ip : IpAddr}

theorem checkBan_of_banned {now : Nat} (h : g.bans.isBanned now ip.toCanonical = true) :
    g.checkBan now ip = .error "banned" := by
  simp [checkBan, h]

theorem checkBan_ok_iff {now : Nat} {a : IpAddr} :
    g.checkBan now ip = .ok a ↔ a = ip.toCanonical ∧ g.bans.isBanned now a = false := by
  unfold checkBan
  by_cases hb : g.bans.isBanned now ip.toCanonical = true
  · simp only [hb, if_true, reduceCtorEq, false_iff, not_and]
    rintro rfl
    simp [hb]
  · simp only [hb, Bool.false_eq_true, if_false, Except.ok.injEq]
    constructor
    · rintro rfl
      exact ⟨rfl,by simpa using hb⟩
    · rintro ⟨rfl,-⟩
      rfl

/-- Undisturbed, the two steps of an admission are `admit`. -/
theorem step_locked_check {now : Nat} (h : g.waiting = []) :
    (g.step (.check now ip)).step (.locked 0) = (g.admitAddress now ip).toOption.getD g := by
  cases g with
  | mk limits bans counts waiting slots =>
    subst h
    simp only [step, admitAddress]
    cases hc : InboundGate.checkBan ⟨limits,bans,counts,[],slots⟩ now ip with
    | error e => simp [Except.bind, Except.toOption]
    | ok a =>
      simp only [Except.bind, nil_append, getElem?_cons_zero, eraseIdx_cons_zero]
      split <;> simp [*, Except.toOption]

theorem admitLocked_ok (h : g.admitLocked ip = .ok g') :
    g' = g.admitted ip ∧ g.counts.total < g.limits.total ∧
      (ip.isLoopback = false → g.limits.perIp ≠ 0 → g.counts.byIp.at' ip < g.limits.perIp) ∧
      (ip.isLoopback = false → g.limits.perGroup ≠ 0 →
        g.counts.byGroup.at' (netGroup ip) < g.limits.perGroup) := by
  unfold admitLocked at h
  dsimp only at h
  split at h
  · cases h
  split at h
  · cases h
  split at h
  · cases h
  case _ htotal hip hgroup =>
    cases h
    refine ⟨rfl,by omega,?_,?_⟩
    · intro hl h0
      simp only [hl, isOver] at hip
      simpa [h0] using hip
    · intro hl h0
      simp only [hl, isOver] at hgroup
      simpa [h0] using hgroup

end InboundGate

theorem netGroup_of_loopback {ip : IpAddr} (h : ip.toCanonical.isLoopback = true) :
    netGroup ip = .local ip.toCanonical := by
  have hnot : ipAllowed ip.toCanonical false = false := by
    cases hc : ip.toCanonical with
    | v4 a =>
      rw [hc] at h
      simp [ipAllowed, show a.isLoopback = true from h]
    | v6 a =>
      rw [hc] at h
      simp [ipAllowed, show a.isLoopback = true from h]
  simp [netGroup, hnot]

theorem netGroup_eq_local {ip a : IpAddr} (h : netGroup ip = .local a) : ip.toCanonical = a := by
  unfold netGroup at h
  dsimp only at h
  split at h
  · exact NetGroup.local.inj h
  · split at h <;> cases h

@[simp] theorem IpAddr.toCanonical_idem (ip : IpAddr) :
    ip.toCanonical.toCanonical = ip.toCanonical := by
  cases ip with
  | v4 a => rfl
  | v6 a =>
    cases h : a.toIpv4Mapped with
    | none => simp [IpAddr.toCanonical, h]
    | some b => simp [IpAddr.toCanonical, h]

namespace InboundGate

/-- The counts are those of the slots alive, and within the limits. -/
structure Counted (limits : InboundLimits) (g : InboundGate) : Prop where
  sameLimits : g.limits = limits
  total : g.counts.total = g.slots.length
  byIp : g.counts.byIp.Counts g.slots
  byGroup : g.counts.byGroup.Counts (g.slots.map netGroup)
  waitingCanonical : ∀ ip ∈ g.waiting, ip.toCanonical = ip
  canonical : ∀ ip ∈ g.slots, ip.toCanonical = ip
  totalLimit : g.slots.length ≤ limits.total
  ipLimit : ∀ ip : IpAddr, ip.isLoopback = false → limits.perIp ≠ 0 →
    g.slots.count ip ≤ limits.perIp
  groupLimit : ∀ ip : IpAddr, ip.toCanonical.isLoopback = false → limits.perGroup ≠ 0 →
    (g.slots.map netGroup).count (netGroup ip) ≤ limits.perGroup

variable {g g' : InboundGate} {limits : InboundLimits} {ip : IpAddr}

theorem counted_new (limits : InboundLimits) (bans : BanList) : (new limits bans).Counted limits :=
  ⟨rfl,rfl,Tally.counts_empty,Tally.counts_empty,by simp [new],by simp [new],by simp [new],
    by simp [new],by simp [new]⟩

section

variable (h : g.Counted limits)
include h

theorem Counted.with_bans (bans : BanList) :
    ({ g with bans := bans } : InboundGate).Counted limits :=
  ⟨h.sameLimits,h.total,h.byIp,h.byGroup,h.waitingCanonical,h.canonical,h.totalLimit,h.ipLimit,
    h.groupLimit⟩

theorem Counted.with_waiting {waiting : List IpAddr} (hw : ∀ ip ∈ waiting, ip.toCanonical = ip) :
    ({ g with waiting := waiting } : InboundGate).Counted limits :=
  ⟨h.sameLimits,h.total,h.byIp,h.byGroup,hw,h.canonical,h.totalLimit,h.ipLimit,h.groupLimit⟩

/-- An address of another group than the loopback one admitted, or one the check of the
group counted. -/
theorem Counted.groupLimit_admitted (hc : ip.toCanonical = ip)
    (hgroup : ip.isLoopback = false → limits.perGroup ≠ 0 →
      g.counts.byGroup.at' (netGroup ip) < limits.perGroup)
    {a : IpAddr} (ha : a.toCanonical.isLoopback = false) (h0 : limits.perGroup ≠ 0) :
    ((ip :: g.slots).map netGroup).count (netGroup a) ≤ limits.perGroup := by
  rw [map_cons]
  by_cases hsame : netGroup ip = netGroup a
  · cases hl : ip.isLoopback with
    | true =>
      have hlocal : netGroup ip = .local ip.toCanonical := netGroup_of_loopback (by rw [hc, hl])
      have heq : a.toCanonical = ip.toCanonical := netGroup_eq_local (hsame.symm.trans hlocal)
      rw [heq, hc, hl] at ha
      cases ha
    | false =>
      have hless := hgroup hl h0
      rw [h.byGroup.at'_eq, hsame] at hless
      rw [hsame, count_cons_self]
      omega
  · rw [count_cons_of_ne hsame]
    exact h.groupLimit a ha h0

theorem Counted.admitted (hc : ip.toCanonical = ip)
    (ha : g.admitLocked ip = .ok g') : g'.Counted limits := by
  obtain ⟨rfl,htotal,hip,hgroup⟩ := admitLocked_ok ha
  rw [h.sameLimits] at htotal hip hgroup
  refine ⟨h.sameLimits,?_,h.byIp.add ip,h.byGroup.add _,h.waitingCanonical,?_,?_,?_,?_⟩
  · simp [InboundGate.admitted, h.total]
  · simpa [InboundGate.admitted, hc] using h.canonical
  · rw [h.total] at htotal
    simpa [InboundGate.admitted] using htotal
  · intro a hl h0
    change (ip :: g.slots).count a ≤ _
    by_cases hsame : ip = a
    · subst hsame
      have hless := hip hl h0
      rw [h.byIp.at'_eq] at hless
      rw [count_cons_self]
      omega
    · rw [count_cons_of_ne hsame]
      exact h.ipLimit a hl h0
  · intro a hl h0
    exact h.groupLimit_admitted hc hgroup hl h0

theorem Counted.dropSlot (i : Nat) : (g.dropSlot i).Counted limits := by
  unfold InboundGate.dropSlot
  cases hi : g.slots[i]? with
  | none => exact h
  | some ip =>
    obtain ⟨hlt,hget⟩ := List.getElem?_eq_some_iff.1 hi
    have hperm : g.slots.Perm (ip :: g.slots.eraseIdx i) := by
      rw [← hget]
      exact (getElem_cons_eraseIdx_perm hlt).symm
    have hsub : (g.slots.eraseIdx i).Sublist g.slots := eraseIdx_sublist g.slots i
    refine ⟨h.sameLimits,?_,(h.byIp.perm hperm).remove,?_,h.waitingCanonical,?_,?_,?_,?_⟩
    · simp only [h.total, length_eraseIdx, hlt, if_true]
    · exact (h.byGroup.perm (hperm.map netGroup)).remove
    · intro a ha
      exact h.canonical a (hsub.subset ha)
    · exact hsub.length_le.trans h.totalLimit
    · intro a hl h0
      exact (hsub.count_le a).trans (h.ipLimit a hl h0)
    · intro a hl h0
      exact ((hsub.map netGroup).count_le _).trans (h.groupLimit a hl h0)

theorem Counted.step (e : GateEvent) : (g.step e).Counted limits := by
  cases e with
  | check now ip =>
    simp only [InboundGate.step]
    split
    · exact h
    · next a ha =>
      obtain ⟨rfl,-⟩ := checkBan_ok_iff.1 ha
      apply h.with_waiting
      intro b hb
      rcases mem_append.1 hb with hb | hb
      · exact h.waitingCanonical b hb
      · simp [mem_singleton.1 hb]
  | locked i =>
    simp only [InboundGate.step]
    split
    · exact h
    · next ip hi =>
      have hw : ({ g with waiting := g.waiting.eraseIdx i } : InboundGate).Counted limits :=
        h.with_waiting fun a ha =>
          h.waitingCanonical a ((eraseIdx_sublist g.waiting i).subset ha)
      split
      · exact hw
      · next ha => exact hw.admitted (h.waitingCanonical ip (mem_of_getElem? hi)) ha
  | drop i => exact h.dropSlot i
  | ban ip ends => exact h.with_bans _
  | unban ip => exact h.with_bans _
  | expire now => exact h.with_bans _

theorem Counted.run (events : List GateEvent) : (g.run events).Counted limits := by
  induction events generalizing g with
  | nil => exact h
  | cons e events ih => exact ih (h.step e)

end

def Passed (g : InboundGate) (events : List GateEvent) (ip : IpAddr) : Prop :=
  ∃ before now a after, events = before ++ .check now a :: after ∧ a.toCanonical = ip ∧
    (g.run before).bans.isBanned now ip = false

variable {events : List GateEvent} {e : GateEvent}

theorem Passed.cons (h : (g.step e).Passed events ip) : g.Passed (e :: events) ip := by
  obtain ⟨before,now,a,after,rfl,ha,hb⟩ := h
  exact ⟨e :: before,now,a,after,rfl,ha,hb⟩

theorem mem_step (h : ip ∈ (g.step e).waiting ++ (g.step e).slots) :
    ip ∈ g.waiting ++ g.slots ∨ g.Passed [e] ip := by
  cases e with
  | check now a =>
    simp only [step] at h
    split at h
    · exact .inl h
    · next b hb =>
      obtain ⟨rfl,hnot⟩ := checkBan_ok_iff.1 hb
      simp only [mem_append, mem_singleton] at h
      rcases h with (h | rfl) | h
      · exact .inl (mem_append_left _ h)
      · exact .inr ⟨[],now,a,[],rfl,rfl,hnot⟩
      · exact .inl (mem_append_right _ h)
  | locked i =>
    left
    simp only [step] at h
    split at h
    · exact h
    · next a hi =>
      have hleft {b : IpAddr} (hb : b ∈ g.waiting.eraseIdx i) : b ∈ g.waiting :=
        (eraseIdx_sublist g.waiting i).subset hb
      split at h
      · simp only [mem_append] at h ⊢
        exact h.imp_left hleft
      · next ha =>
        obtain ⟨rfl,-⟩ := admitLocked_ok ha
        simp only [admitted, mem_append, mem_cons] at h ⊢
        rcases h with h | rfl | h
        · exact .inl (hleft h)
        · exact .inl (mem_of_getElem? hi)
        · exact .inr h
  | drop i =>
    left
    simp only [step, dropSlot] at h
    split at h
    · exact h
    · simp only [mem_append] at h ⊢
      exact h.imp_right fun h => (eraseIdx_sublist g.slots i).subset h
  | ban a ends => exact .inl h
  | unban a => exact .inl h
  | expire now => exact .inl h

theorem mem_run (h : ip ∈ (g.run events).waiting ++ (g.run events).slots) :
    ip ∈ g.waiting ++ g.slots ∨ g.Passed events ip := by
  induction events generalizing g with
  | nil => exact .inl h
  | cons e events ih =>
    rcases ih h with h | h
    · rcases mem_step h with h | ⟨before,now,a,after,heq,ha,hb⟩
      · exact .inl h
      · refine .inr ⟨before,now,a,after ++ events,?_,ha,hb⟩
        rw [← singleton_append, heq]
        simp
    · exact .inr h.cons

end InboundGate

/-- However admissions, drops and changes of the ban list interleave, the counts are those
of the live slots and within the limits, every live slot passed a check that found it not
banned, and an admission of a banned address stops there. -/
theorem inbound_limits_hold (limits : InboundLimits) (bans : BanList)
    (events : List GateEvent) :
    let start := InboundGate.new limits bans
    (start.run events).Counted limits ∧
    (∀ ip ∈ (start.run events).slots, start.Passed events ip) ∧
    ∀ now ip, (start.run events).bans.isBanned now ip.toCanonical = true →
      (start.run events).checkBan now ip = .error "banned" ∧
        (start.run events).step (.check now ip) = start.run events := by
  intro start
  refine ⟨(InboundGate.counted_new limits bans).run events,?_,?_⟩
  · intro ip hip
    rcases InboundGate.mem_run (List.mem_append_right _ hip) with h | h
    · cases h
    · exact h
  · intro now ip hb
    have hstop := InboundGate.checkBan_of_banned hb
    exact ⟨hstop,by simp only [InboundGate.step, hstop]⟩

def publicHost : IpAddr := .v4 ⟨[8,8,8,8],rfl⟩

def bannedHost : IpAddr := .v4 ⟨[9,9,9,9],rfl⟩

/-- Two admissions from one address race for the one place it has, a third address is
banned. -/
def racingAdmissions : List GateEvent :=
  [.check 5 publicHost,.check 5 publicHost,.ban bannedHost 60,
    .check 6 bannedHost,.locked 1,.locked 0]

def racingGate : InboundGate := .new ⟨4,1,2⟩ ∅

theorem inbound_limits_race :
    (racingGate.run racingAdmissions).slots = [publicHost] ∧
    (racingGate.run racingAdmissions).bans.isBanned 7 bannedHost = true ∧
    racingGate.Passed racingAdmissions publicHost := by
  have hslots : (racingGate.run racingAdmissions).slots = [publicHost] := by decide +kernel
  refine ⟨hslots,by decide +kernel,?_⟩
  exact (inbound_limits_hold ⟨4,1,2⟩ ∅ racingAdmissions).2.1 _ (hslots ▸ List.mem_singleton_self _)

end Wrkz
