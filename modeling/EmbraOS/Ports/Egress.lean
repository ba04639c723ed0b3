import Mathlib.Logic.Basic
import EmbraOS.Verified.Text

/-!
# The egress policy on one URL

Port of the address classes and of `check_url` in `embra-guardian/src/caps.rs`.
The URL library, the address parser and the resolver are parameters; the
resolver may answer differently on every hop.

`checkUrl_ok` says what an accepted URL is: `https`, no user information, a
host of the allowlist, and no address, literal or resolved, outside the public
ones and, for a host on the operator's list, the private ones.
-/

namespace EmbraOS.Ports.Egress

open Verified.Text

/-! ## Addresses -/

structure Ipv4Addr where
  a : UInt8
  b : UInt8
  c : UInt8
  d : UInt8
  deriving DecidableEq, Repr

structure Ipv6Addr where
  s0 : UInt16
  s1 : UInt16
  s2 : UInt16
  s3 : UInt16
  s4 : UInt16
  s5 : UInt16
  s6 : UInt16
  s7 : UInt16
  deriving DecidableEq, Repr

inductive IpAddr where
  | v4 (v : Ipv4Addr)
  | v6 (v : Ipv6Addr)
  deriving DecidableEq, Repr

inductive AddressClass where
  | pub
  /-- RFC 1918, CGNAT 100.64/10, IPv6 ULA and site-local. -/
  | priv
  | loopback
  | linkLocal
  | multicast
  | reserved
  deriving DecidableEq, Repr

namespace Ipv4Addr

def isLoopback (v : Ipv4Addr) : Bool := v.a = 127

def isUnspecified (v : Ipv4Addr) : Bool := v = ⟨0, 0, 0, 0⟩

def isLinkLocal (v : Ipv4Addr) : Bool := v.a = 169 ∧ v.b = 254

def isMulticast (v : Ipv4Addr) : Bool := 224 ≤ v.a ∧ v.a ≤ 239

def isPrivate (v : Ipv4Addr) : Bool :=
  v.a = 10 ∨ (v.a = 172 ∧ 16 ≤ v.b ∧ v.b ≤ 31) ∨ (v.a = 192 ∧ v.b = 168)

def isBroadcast (v : Ipv4Addr) : Bool := v = ⟨255, 255, 255, 255⟩

def isDocumentation (v : Ipv4Addr) : Bool :=
  (v.a = 192 ∧ v.b = 0 ∧ v.c = 2) ∨ (v.a = 198 ∧ v.b = 51 ∧ v.c = 100) ∨
    (v.a = 203 ∧ v.b = 0 ∧ v.c = 113)

end Ipv4Addr

def classifyV4 (v : Ipv4Addr) : AddressClass :=
  if v.isLoopback ∨ v.isUnspecified then .loopback
  else if v.isLinkLocal then .linkLocal
  else if v.isMulticast then .multicast
  else if v.isPrivate ∨ (v.a = 100 ∧ 64 ≤ v.b ∧ v.b ≤ 127) then .priv
  else if v.isBroadcast ∨ v.isDocumentation ∨ v.a = 0 ∨ 240 ≤ v.a ∨
      (v.a = 198 ∧ (v.b = 18 ∨ v.b = 19)) then .reserved
  else .pub

namespace Ipv6Addr

def isLoopback (v : Ipv6Addr) : Bool := v = ⟨0, 0, 0, 0, 0, 0, 0, 1⟩

def isUnspecified (v : Ipv6Addr) : Bool := v = ⟨0, 0, 0, 0, 0, 0, 0, 0⟩

def isMulticast (v : Ipv6Addr) : Bool := v.s0 &&& 0xff00 = 0xff00

/-- The IPv4 address in `::ffff:a.b.c.d`. -/
def toIpv4Mapped (v : Ipv6Addr) : Option Ipv4Addr :=
  if v.s0 = 0 ∧ v.s1 = 0 ∧ v.s2 = 0 ∧ v.s3 = 0 ∧ v.s4 = 0 ∧ v.s5 = 0xffff then
    some ⟨(v.s6 >>> 8).toUInt8, v.s6.toUInt8, (v.s7 >>> 8).toUInt8, v.s7.toUInt8⟩
  else none

end Ipv6Addr

/-- An IPv4-mapped address is judged as the IPv4 address it carries. -/
def classify : IpAddr → AddressClass
  | .v4 v => classifyV4 v
  | .v6 v =>
    if v.isLoopback ∨ v.isUnspecified then .loopback
    else
      match v.toIpv4Mapped with
      | some v4 => classifyV4 v4
      | none =>
        if v.isMulticast then .multicast
        else if v.s0 = 0 ∧ v.s1 = 0 ∧ v.s2 = 0 ∧ v.s3 = 0 ∧ v.s4 = 0 ∧ v.s5 = 0 then
          .reserved
        else if (v.s0 = 0x64 ∧ v.s1 = 0xff9b ∧ v.s2 = 0 ∧ v.s3 = 0 ∧ v.s4 = 0 ∧
            v.s5 = 0) ∨ v.s0 = 0x2002 then .reserved
        else if v.s0 &&& 0xfe00 = 0xfc00 ∨ v.s0 &&& 0xffc0 = 0xfec0 then .priv
        else if v.s0 &&& 0xffc0 = 0xfe80 then .linkLocal
        else .pub

/-! ## The policy -/

/-- Times are in nanoseconds. -/
structure EgressPolicy where
  allowDomains : Option (List String) := none
  privateHosts : List String := []
  maxBytes : Nat := 256 * 1024
  timeout : Nat := 10 * 1000000000
  deriving DecidableEq, Repr

/-- The URL library. -/
structure UrlLib (Url : Type) where
  parse : String → Except String Url
  scheme : Url → String
  username : Url → String
  password : Url → Option String
  hostStr : Url → Option String
  port : Url → Option Nat
  portOrKnownDefault : Url → Option Nat
  /-- The query with these pairs appended. -/
  appendPairs : Url → List (String × String) → Url
  join : Url → String → Except String Url
  toText : Url → String

/-- The address parser, and the resolver's answer on each hop. -/
structure Network (Url : Type) extends UrlLib Url where
  parseIp : String → Option IpAddr
  toSocketAddrs : Nat → String → Nat → Except String (List IpAddr)

section Check

variable {Url : Type} (net : Network Url)

/-- The host is the entry or a subdomain of it; an address is only itself. -/
def hostMatches (host entry : String) : Bool :=
  let entry := toAsciiLowercase (trim entry)
  if entry = "" then false
  else if (net.parseIp host).isSome ∨ (net.parseIp entry).isSome then host = entry
  else host = entry ∨ endsWith host ("." ++ entry)

def refuseClass (cls : AddressClass) (privateOk : Bool) (verb : String) :
    Except String Unit :=
  match cls with
  | .pub => .ok ()
  | .priv =>
    if privateOk then .ok ()
    else .error ("destination " ++ verb ++ " a private address (SSRF blocked; not on " ++
      "the egress allowlist — /guardian egress allow <host>)")
  | .loopback =>
    .error ("destination " ++ verb ++
      " a loopback address (SSRF blocked; refused always)")
  | .linkLocal =>
    .error ("destination " ++ verb ++
      " a link-local address (SSRF blocked; refused always)")
  | .multicast =>
    .error ("destination " ++ verb ++
      " a multicast address (SSRF blocked; refused always)")
  | .reserved =>
    .error ("destination " ++ verb ++
      " a reserved address (SSRF blocked; refused always)")

/-- The first address of a refused class stops the check. -/
def refuseAddrs (privateOk : Bool) : List IpAddr → Except String Unit
  | [] => .ok ()
  | ip :: ips =>
    match refuseClass (classify ip) privateOk "resolves to" with
    | .error e => .error e
    | .ok () => refuseAddrs privateOk ips

def inAllowlist (policy : EgressPolicy) (host : String) : Bool :=
  match policy.allowDomains with
  | none => true
  | some allow => allow.any (fun d => host = d ∨ endsWith host ("." ++ d))

def privateOk (policy : EgressPolicy) (host : String) : Bool :=
  policy.privateHosts.any (hostMatches net (toAsciiLowercase host))

def refuseLiteral (policy : EgressPolicy) (host : String) : Except String Unit :=
  match net.parseIp host with
  | none => .ok ()
  | some ip => refuseClass (classify ip) (privateOk net policy host) "is"

/-- The policy on the URL of one hop. -/
def checkUrl (policy : EgressPolicy) (hop : Nat) (url : String) : Except String Url :=
  match net.parse url with
  | .error e => .error ("invalid url: " ++ e)
  | .ok parsed =>
    if net.scheme parsed ≠ "https" then .error "only https:// destinations are allowed"
    else if net.username parsed ≠ "" ∨ (net.password parsed).isSome then
      .error "url userinfo (user:pass@) is not allowed"
    else
      match net.hostStr parsed with
      | none => .error "url has no host"
      | some host =>
        if inAllowlist policy host = false then
          .error "destination domain is not in the allowlist"
        else
          match refuseLiteral net policy host with
          | .error e => .error e
          | .ok () =>
            let port := (net.portOrKnownDefault parsed).getD 443
            match net.toSocketAddrs hop host port with
            | .error e => .error ("dns resolution failed: " ++ e)
            | .ok addrs =>
              match refuseAddrs (privateOk net policy host) addrs with
              | .error e => .error e
              | .ok () =>
                if addrs = [] then .error "destination did not resolve"
                else .ok parsed

/-! ## What an accepted URL is -/

/-- The classes a request may reach. -/
def Reachable (policy : EgressPolicy) (host : String) (ip : IpAddr) : Prop :=
  classify ip = .pub ∨ classify ip = .priv ∧ privateOk net policy host = true

structure Accepted (policy : EgressPolicy) (hop : Nat) (url : String) (parsed : Url) :
    Prop where
  parse : net.parse url = .ok parsed
  scheme : net.scheme parsed = "https"
  userinfo : net.username parsed = "" ∧ net.password parsed = none
  /-- The host, and where it leads. -/
  host : ∃ host, net.hostStr parsed = some host ∧ inAllowlist policy host = true ∧
    (∀ ip, net.parseIp host = some ip → Reachable net policy host ip) ∧
    ∃ addrs, addrs ≠ [] ∧
      net.toSocketAddrs hop host ((net.portOrKnownDefault parsed).getD 443) =
        .ok addrs ∧
      ∀ ip ∈ addrs, Reachable net policy host ip

variable {net}

theorem refuseClass_ok {cls : AddressClass} {privateOk : Bool} {verb : String}
    (h : refuseClass cls privateOk verb = .ok ()) :
    cls = .pub ∨ cls = .priv ∧ privateOk = true := by
  cases cls <;> cases privateOk <;> simp_all [refuseClass]

theorem refuseAddrs_ok {privateOk : Bool} {addrs : List IpAddr}
    (h : refuseAddrs privateOk addrs = .ok ()) :
    ∀ ip ∈ addrs, classify ip = .pub ∨ classify ip = .priv ∧ privateOk = true := by
  induction addrs with
  | nil => simp
  | cons ip addrs ih =>
    rw [refuseAddrs] at h
    split at h
    · cases h
    · rename_i hclass
      rintro ip' (_ | ⟨_, hmem⟩)
      · exact refuseClass_ok hclass
      · exact ih h ip' hmem

/-- **What passes the guard.** -/
theorem checkUrl_ok {policy : EgressPolicy} {hop : Nat} {url : String} {parsed : Url}
    (h : checkUrl net policy hop url = .ok parsed) :
    Accepted net policy hop url parsed := by
  unfold checkUrl at h
  split at h
  · cases h
  rename_i u hparse
  split at h
  · cases h
  rename_i hscheme
  split at h
  · cases h
  rename_i huser
  split at h
  · cases h
  rename_i host hhost
  split at h
  · cases h
  rename_i hallow
  split at h
  · cases h
  rename_i hliteral
  dsimp only at h
  split at h
  · cases h
  rename_i addrs haddrs
  split at h
  · cases h
  rename_i hrefuse
  split at h
  · cases h
  rename_i hsome
  obtain rfl := Except.ok.inj h
  rw [not_or, not_not, Bool.not_eq_true, Option.isSome_eq_false_iff,
    Option.isNone_iff_eq_none] at huser
  refine ⟨hparse, not_not.1 hscheme, huser, host, hhost,
    by simpa using hallow, fun ip hip => ?_, addrs, hsome, haddrs,
    refuseAddrs_ok hrefuse⟩
  rw [refuseLiteral, hip] at hliteral
  exact refuseClass_ok hliteral

end Check

end EmbraOS.Ports.Egress
