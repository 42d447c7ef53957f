import Wrkz.Library.Assoc
import Wrkz.Library.Shuffle
import Wrkz.P2p.Messages

/-!
The peer manager: the white and gray lists of both address families, the bans, the
misbehaviour scores, and the choice of the addresses to dial.

Instants are natural numbers, in nanoseconds of a monotonic clock; a time of the
wire and of the lists is in Unix seconds. The entropy a choice starts from is an
argument.
-/

set_option autoImplicit false

namespace Wrkz

open Library

abbrev Ipv4Addr := ByteVec 4

abbrev Ipv6Addr := ByteVec 16

inductive IpAddr where
  | v4 (a : Ipv4Addr)
  | v6 (a : Ipv6Addr)
  deriving DecidableEq, Repr

structure SocketAddr where
  ip : IpAddr
  port : Nat
  deriving DecidableEq, Repr

def ByteVec.octet {n : Nat} (a : ByteVec n) (i : Nat) : Nat := (a.bytes.getD i 0).toNat

namespace Ipv4Addr

variable (a : Ipv4Addr)

def isLoopback : Bool := a.octet 0 = 127

def isUnspecified : Bool := a.bytes = [0,0,0,0]

def isBroadcast : Bool := a.bytes = [255,255,255,255]

def isMulticast : Bool := 224 ≤ a.octet 0 ∧ a.octet 0 ≤ 239

def isPrivate : Bool :=
  a.octet 0 = 10 ∨ (a.octet 0 = 172 ∧ 16 ≤ a.octet 1 ∧ a.octet 1 ≤ 31) ∨
    (a.octet 0 = 192 ∧ a.octet 1 = 168)

def isLinkLocal : Bool := a.octet 0 = 169 ∧ a.octet 1 = 254

end Ipv4Addr

def mappedOctets : Bytes := [0,0,0,0,0,0,0,0,0,0,0xff,0xff]

namespace Ipv6Addr

variable (a : Ipv6Addr)

def isLoopback : Bool := a.bytes = List.replicate 15 0 ++ [1]

def isUnspecified : Bool := a.bytes = List.replicate 16 0

def isMulticast : Bool := a.octet 0 = 0xff

/-- `fe80::/10` and `fc00::/7`, the IPv6 equivalents of the private ranges. -/
def isLocalRange : Bool :=
  ((a.octet 0 * 256 + a.octet 1) &&& 0xffc0) = 0xfe80 ∨ (a.octet 0 &&& 0xfe) = 0xfc

def toIpv4Mapped : Option Ipv4Addr :=
  if a.bytes.take 12 = mappedOctets then
    some ⟨a.bytes.drop 12,by rw [List.length_drop, a.length_eq]⟩
  else none

end Ipv6Addr

def IpAddr.toCanonical : IpAddr → IpAddr
  | .v4 a => .v4 a
  | .v6 a => (a.toIpv4Mapped.map IpAddr.v4).getD (.v6 a)

def ipAllowed (ip : IpAddr) (allowLocal : Bool) : Bool :=
  match ip with
  | .v4 a =>
    if a.isLoopback || a.isUnspecified || a.isBroadcast || a.isMulticast then false
    else allowLocal || !(a.isPrivate || a.isLinkLocal)
  | .v6 a =>
    if a.isLoopback || a.isUnspecified || a.isMulticast then false
    else allowLocal || !a.isLocalRange

inductive NetGroup where
  | v4 (octets : Bytes)
  | v6 (octets : Bytes)
  | local (ip : IpAddr)
  deriving DecidableEq, Repr

def netGroup (ip : IpAddr) : NetGroup :=
  let ip := ip.toCanonical
  if !ipAllowed ip false then .local ip
  else
    match ip with
    | .v4 a => .v4 (a.bytes.take 2)
    | .v6 a => .v6 (a.bytes.take 4)

/-- `Rng`: SplitMix64. -/
def rngNext (g : UInt64) : Nat × UInt64 :=
  let g := g + 0x9E3779B97F4A7C15
  let z := (g ^^^ (g >>> 30)) * 0xBF58476D1CE4E5B9
  let z := (z ^^^ (z >>> 27)) * 0x94D049BB133111EB
  ((z ^^^ (z >>> 31)).toNat,g)

/-- `PeerlistEntry` and `PeerlistEntry6`, which differ in the length of the address. -/
structure ListEntry (n : Nat) where
  ip : ByteVec n
  port : Nat
  id : Nat
  lastSeen : Nat
  deriving DecidableEq, Repr

abbrev PeerlistEntry := ListEntry 4

abbrev PeerlistEntry6 := ListEntry 16

namespace ListEntry

variable {n : Nat}

def sameAddress (a b : ListEntry n) : Bool := a.ip = b.ip ∧ a.port = b.port

def socketAddrWith (family : ByteVec n → IpAddr) (e : ListEntry n) : Option SocketAddr :=
  if e.port < 2^16 then some ⟨family e.ip,e.port⟩ else none

def upsert (e : ListEntry n) : List (ListEntry n) → List (ListEntry n)
  | [] => [e]
  | f :: l => if f.sameAddress e then e :: l else f :: upsert e l

/-- `trim`. -/
def trim (list : List (ListEntry n)) (max : Nat) : List (ListEntry n) :=
  if list.length ≤ max then list
  else (list.mergeSort fun a b => decide (b.lastSeen ≤ a.lastSeen)).take max

end ListEntry

def socketAddrOf (e : PeerlistEntry) : Option SocketAddr := e.socketAddrWith .v4

def socketAddrOf6 (e : PeerlistEntry6) : Option SocketAddr := e.socketAddrWith .v6

def failedAddressBackoff : Nat := 600 * 1000000000
def misbehaviourBanSeconds : Nat := 24 * 60 * 60
def banThreshold : Nat := 100
def scoreMemory : Nat := 24 * 60 * 60 * 1000000000
def maxScoredAddresses : Nat := 4096
def grayPerGroupLimit : Nat := 16
def whitePercent : Nat := 70
def p2pLocalWhitePeerlistLimit : Nat := 1000
def p2pLocalGrayPeerlistLimit : Nat := 5000

/-- `Score`. -/
structure Misconduct where
  points : Nat
  last : Nat
  deriving DecidableEq, Repr

/-- The bans keep the instant they end at, as do the failed addresses. -/
structure PeerManager where
  white : List PeerlistEntry
  gray : List PeerlistEntry
  white6 : List PeerlistEntry6
  gray6 : List PeerlistEntry6
  allowLocalIp : Bool
  failed : AList fun _ : SocketAddr => Nat
  banned : AList fun _ : IpAddr => Nat
  scores : AList fun _ : IpAddr => Misconduct
  seeds : List SocketAddr

/-- `group_counts`. -/
def groupCounts (ips : List IpAddr) (g : NetGroup) : Nat := ips.countP fun ip => netGroup ip = g

section Merge

variable {n : Nat} (family : ByteVec n → IpAddr) (allowLocal : Bool) (white : List (ListEntry n))

/-- `append_gray` and `append_gray6`: an address already white is left alone. -/
def grayWith (gray : List (ListEntry n)) (e : ListEntry n) : List (ListEntry n) :=
  if !ipAllowed (family e.ip) allowLocal then gray
  else if white.any (·.sameAddress e) then gray
  else e.upsert gray

/-- The loop of `merge_peerlist` and `merge_peerlist6`. A group's count goes up even
when the address is then refused. -/
def mergeLoop (gray : List (ListEntry n)) (perGroup : NetGroup → Nat) :
    List (ListEntry n) → List (ListEntry n)
  | [] => gray
  | e :: rest =>
    let group := netGroup (family e.ip)
    if gray.any (·.sameAddress e) then
      mergeLoop (grayWith family allowLocal white gray e) perGroup rest
    else if grayPerGroupLimit ≤ perGroup group then mergeLoop gray perGroup rest
    else
      mergeLoop (grayWith family allowLocal white gray e)
        (Function.update perGroup group (perGroup group + 1)) rest

end Merge

namespace PeerManager

def new (allowLocalIp : Bool) : PeerManager := ⟨[],[],[],[],allowLocalIp,∅,∅,∅,[]⟩

variable (m : PeerManager)

def setSeeds (seeds : List SocketAddr) : PeerManager := { m with seeds }

def trimWhite : PeerManager :=
  { m with
    white := ListEntry.trim m.white p2pLocalWhitePeerlistLimit
    white6 := ListEntry.trim m.white6 p2pLocalWhitePeerlistLimit }

def trimGray : PeerManager :=
  { m with
    gray := ListEntry.trim m.gray p2pLocalGrayPeerlistLimit
    gray6 := ListEntry.trim m.gray6 p2pLocalGrayPeerlistLimit }

def appendWhite (entry : PeerlistEntry) : PeerManager :=
  if !ipAllowed (.v4 entry.ip) m.allowLocalIp then m
  else
    let known := m.white.any (·.sameAddress entry)
    let m := { m with white := entry.upsert m.white }
    let m := if known then m else m.trimWhite
    { m with gray := m.gray.filter fun e => !e.sameAddress entry }

def appendWhite6 (entry : PeerlistEntry6) : PeerManager :=
  if !ipAllowed (.v6 entry.ip) m.allowLocalIp then m
  else
    let known := m.white6.any (·.sameAddress entry)
    let m := { m with white6 := entry.upsert m.white6 }
    let m := if known then m else m.trimWhite
    { m with gray6 := m.gray6.filter fun e => !e.sameAddress entry }

def addCommandLinePeer (addr : SocketAddr) (id : Nat) : PeerManager :=
  match addr.ip with
  | .v4 ip =>
    if m.white.any fun e => e.ip = ip ∧ e.port = addr.port then m
    else m.appendWhite ⟨ip,addr.port,id,0⟩
  | .v6 ip =>
    if m.white6.any fun e => e.ip = ip ∧ e.port = addr.port then m
    else m.appendWhite6 ⟨ip,addr.port,id,0⟩

def setPeerJustSeen (peerId : Nat) (addr : SocketAddr) (now : Nat) : PeerManager :=
  let m := match addr.ip with
    | .v4 ip => m.appendWhite ⟨ip,addr.port,peerId,now⟩
    | .v6 ip => m.appendWhite6 ⟨ip,addr.port,peerId,now⟩
  { m with failed := m.failed.erase addr }

/-- `shift` of `merge_peerlist`: by the difference of the two clocks, and never past
our own. -/
def shift (senderLocalTime now lastSeen : Nat) : Nat :=
  let shifted :=
    if senderLocalTime ≤ now then min (lastSeen + (now - senderLocalTime)) (2^64 - 1)
    else lastSeen - (senderLocalTime - now)
  min shifted now

/-- `false` when the list was rejected. -/
def mergePeerlist (entries : List PeerlistEntry) (senderLocalTime now : Nat) :
    Bool × PeerManager :=
  let kept := entries.take maxPeerlistEntries
  if kept.any fun e => decide (senderLocalTime < e.lastSeen) then (false,m)
  else
    let shifted := kept.map fun e => { e with lastSeen := shift senderLocalTime now e.lastSeen }
    let perGroup := groupCounts (m.gray.map fun e => .v4 e.ip)
    let gray := mergeLoop .v4 m.allowLocalIp m.white m.gray perGroup shifted
    (true,{ m with gray }.trimGray)

def mergePeerlist6 (entries : List PeerlistEntry6) (now : Nat) : PeerManager :=
  let clamped := (entries.take maxPeerlistEntries).map fun e =>
    { e with lastSeen := min e.lastSeen now }
  let perGroup := groupCounts (m.gray6.map fun e => .v6 e.ip)
  let gray6 := mergeLoop .v6 m.allowLocalIp m.white6 m.gray6 perGroup clamped
  { m with gray6 }.trimGray

def ban (ip : IpAddr) (seconds now : Nat) : PeerManager :=
  { m with banned := m.banned.insert ip (now + seconds * 1000000000) }

def unban (ip : IpAddr) : PeerManager := { m with banned := m.banned.erase ip }

def isBanned (now : Nat) (ip : IpAddr) : Bool := (m.banned.lookup ip).any fun ends => now < ends

def noteDialFailure (addr : SocketAddr) (now : Nat) : PeerManager :=
  { m with failed := m.failed.insert addr (now + failedAddressBackoff) }

def freshScores (now : Nat) : AList fun _ : IpAddr => Misconduct :=
  retain (fun _ s => now - s.last ≤ scoreMemory) m.scores

def expire (now : Nat) : PeerManager :=
  { m with
    failed := retain (fun _ ends => now < ends) m.failed
    banned := retain (fun _ ends => now < ends) m.banned
    scores := m.freshScores now }

def stalest (scores : AList fun _ : IpAddr => Misconduct) : Option IpAddr :=
  (scores.entries.argmin fun e => e.2.last).map Sigma.fst

def makeRoom (ip : IpAddr) (now : Nat) : AList fun _ : IpAddr => Misconduct :=
  if (m.scores.lookup ip).isNone ∧ maxScoredAddresses ≤ m.scores.entries.length then
    let scores := m.freshScores now
    if maxScoredAddresses ≤ scores.entries.length then
      match stalest scores with
      | some old => scores.erase old
      | none => scores
    else scores
  else m.scores

/-- The points of an address with those of one more offence. Old ones are forgotten. -/
def pointsAfter (scores : AList fun _ : IpAddr => Misconduct) (ip : IpAddr) (points now : Nat) :
    Nat :=
  let score := (scores.lookup ip).getD ⟨0,now⟩
  let held := if scoreMemory < now - score.last then 0 else score.points
  min (held + points) (2^32 - 1)

/-- `true` when the address is now banned. -/
def penalise (ip : IpAddr) (points now : Nat) : Bool × PeerManager :=
  let scores := m.makeRoom ip now
  let total := pointsAfter scores ip points now
  if total < banThreshold then (false,{ m with scores := scores.insert ip ⟨total,now⟩ })
  else (true,{ m with scores := scores.erase ip }.ban ip misbehaviourBanSeconds now)

def dialable (now : Nat) (addr : SocketAddr) (busy : List SocketAddr) : Bool :=
  !busy.contains addr && !m.isBanned now addr.ip &&
    !(m.failed.lookup addr).any (fun ends => now < ends) && ipAllowed addr.ip m.allowLocalIp

/-- `take` of `dial_candidates_for`: at most one address of a group. -/
def takeFrom (limit : Nat) :
    List SocketAddr → List SocketAddr × List NetGroup → List SocketAddr × List NetGroup
  | [], picked => picked
  | a :: src, (out,groups) =>
    if limit ≤ out.length then (out,groups)
    else if out.contains a || groups.contains (netGroup a.ip) then takeFrom limit src (out,groups)
    else takeFrom limit src (out ++ [a],netGroup a.ip :: groups)

def takeSeeds (want : Nat) : List SocketAddr → List SocketAddr → List SocketAddr
  | [], out => out
  | a :: src, out =>
    if want ≤ out.length then out
    else if out.contains a then takeSeeds want src out
    else takeSeeds want src (out ++ [a])

/-- `white_addresses`. -/
def whiteAddresses : List SocketAddr :=
  m.white.filterMap socketAddrOf ++ m.white6.filterMap socketAddrOf6

/-- `gray_addresses`. -/
def grayAddresses : List SocketAddr :=
  m.gray.filterMap socketAddrOf ++ m.gray6.filterMap socketAddrOf6

/-- The candidates from the shuffled lists: mostly white ones, then gray ones, then
white ones again. -/
def pickFrom (want : Nat) (white gray : List SocketAddr) (groups : List NetGroup) :
    List SocketAddr :=
  let whiteTarget := (want * whitePercent + 99) / 100
  let picked := takeFrom (min whiteTarget want) white ([],groups)
  let picked := takeFrom want gray picked
  (takeFrom want white picked).1

def dialCandidatesFor (seed : UInt64) (now want : Nat) (busy outbound : List SocketAddr) :
    List SocketAddr :=
  if want = 0 then []
  else
    let open_ := fun a => m.dialable now a busy
    let white := shuffle rngNext seed (m.whiteAddresses.filter open_)
    let gray := shuffle rngNext white.2 (m.grayAddresses.filter open_)
    let out := pickFrom want white.1 gray.1 (outbound.map fun a => netGroup a.ip)
    if out.length < want then
      takeSeeds want (shuffle rngNext gray.2 (m.seeds.filter open_)).1 out
    else out

end PeerManager

end Wrkz
