import Unisock.Address.Retry

/-! The ways to an address with a port that start from a host name. -/

namespace Unisock.Address

/-- `getaddrinfo` on one host: the result of each call, for each family in the hints. -/
abbrev Resolver := Family → Nat → Except Int (List (List UInt8))

/-- How a function that builds an address ends. -/
inductive Outcome (α : Type)
  | value (a : α)
  /-- `return false`. -/
  | failed
  /-- `throw std::logic_error(what)`. -/
  | thrown (what : String)
  /-- The pointer that `to` returns is null and is dereferenced. -/
  | nullPointer
deriving DecidableEq, Repr

/-- `address.to<type>()->sin_port = htons(port)`. -/
def SocketAddress.assignPort (o : ByteOrder) (a : SocketAddress) (type : AddressType)
    (port : UInt16) : Outcome SocketAddress :=
  match a.to? type with
  | none => .nullPointer
  | some sin => .value (sin.setPort o (o.htons port))

/-- `socket_address::socket_address(host, port, use_IPv6)`. -/
def ofHost (o : ByteOrder) (resolver : Resolver) (port : UInt16) (useIPv6 : Bool) :
    Outcome SocketAddress :=
  match addrinfo (resolver (inetFamily useIPv6)) .empty with
  | (.success, address) => address.assignPort o .sockaddrIn port
  | _ => .thrown "unable to retrieve host address"

/-- `socket_address::from(hostname, port, family)`, where `strerror(errno)` is `error`. -/
def fromHost (o : ByteOrder) (resolver : Resolver) (port : UInt16) (family : Family)
    (error : String) : Outcome SocketAddress :=
  match addrinfo (resolver family) .empty with
  | (.success, address) =>
    if address.family ≠ AF_INET ∧ address.family ≠ AF_INET6 then
      .thrown ("invalid inet address from constructor: required port but address is not of type " ++
        "AF_INET or AF_INET6")
    else address.assignPort o .sockaddrIn port
  | _ => .thrown ("error when trying to get address info: " ++ error)

/-- The part of `server_impl::listen`, `client_impl::connect` and `udp::socket_impl::bind` that
resolves the host into the address of the socket and then sets the port. -/
def resolveThenSetPort (o : ByteOrder) (resolver : Resolver) (address : SocketAddress)
    (port : UInt16) (useIPv6 : Bool) : Outcome SocketAddress :=
  match addrinfo (resolver (inetFamily useIPv6)) address with
  | (.success, address) =>
    if !useIPv6 then address.assignPort o .sockaddrIn port
    else address.assignPort o .sockaddrIn6 port
  | _ => .failed

/-- The length of the address structure of an internet family. -/
def inetLength (family : Family) : Nat := if family = AF_INET6 then 28 else 16

/-- One of the calls of `getaddrinfo` gives a list of addresses of the internet family that was asked
for, with `bytes` in front, and the calls before it `EAI_AGAIN`. -/
structure Resolves (resolver : Resolver) (family : Family) (bytes : List UInt8) : Prop where
  call : ∃ k < MAX_HOST_RESOLVE_RETRIES, (∀ j < k, resolver family j = .error EAI_AGAIN) ∧
    ∃ more, resolver family k = .ok (bytes :: more)
  length : bytes.length = inetLength family
  saLen : bytes[0]? = some (UInt8.ofNat (inetLength family))
  saFamily : bytes[1]? = some family

/-- `old` with the address that `getaddrinfo` returned copied over it, and with a port. -/
structure Built (o : ByteOrder) (old : SocketAddress) (bytes : List UInt8) (family : Family)
    (port : UInt16) (a : SocketAddress) : Prop where
  family : a.family = family
  port : o.ntohs (a.port o) = port
  rest : ∀ i (hi : i < 128), i ≠ 2 → i ≠ 3 → a.address[i] = bytes[i]?.getD old.address[i]

/-- Two addresses are the same on their first `length` bytes, which are those of the structure. -/
def Agree (length : Nat) (a b : SocketAddress) : Prop :=
  ∀ i (hi : i < 128), i < length → a.address[i] = b.address[i]

section Routes

variable {o : ByteOrder} {resolver : Resolver} {family : Family} {bytes : List UInt8}
  {useIPv6 : Bool} {port : UInt16}

theorem inetLength_le (family : Family) : inetLength family ≤ 28 := by
  unfold inetLength
  split <;> omega

theorem Resolves.addrinfo (h : Resolves resolver family bytes) (address : SocketAddress) :
    Address.addrinfo (resolver family) address = (.success, address.copy bytes) := by
  obtain ⟨k, hk, hagain, more, hok⟩ := h.call
  have hfirst : FirstSettled (resolver family) k := ⟨hagain, by simp [hok]⟩
  have hlimit : 1 ≤ MAX_HOST_RESOLVE_RETRIES := by decide
  have hretries := addrinfoWith_retries hlimit (resolver family) address
  have hfits : bytes.length ≤ 128 := by
    have := inetLength_le family
    rw [h.length]
    omega
  rw [Address.addrinfo, (hretries.settles k hk hfirst).2, hok]
  exact if_pos hfits

theorem Resolves.family_copy (h : Resolves resolver family bytes) (address : SocketAddress) :
    (address.copy bytes).family = family := by
  rw [SocketAddress.family, SocketAddress.getElem_copy, h.saFamily, Option.getD_some]

theorem assignPort_of_family {a : SocketAddress} {type : AddressType}
    (hinet : type ≠ .sockaddr) (htype : type.familyOf = a.family) :
    a.assignPort o type port = .value (a.setPort o (o.htons port)) := by
  cases type with
  | sockaddr => exact absurd rfl hinet
  | sockaddrIn | sockaddrIn6 => simp [SocketAddress.assignPort, SocketAddress.to?, htype]

theorem assignPort_of_ne {a : SocketAddress} {type : AddressType} (hinet : type ≠ .sockaddr)
    (htype : type.familyOf ≠ a.family) : a.assignPort o type port = .nullPointer := by
  cases type with
  | sockaddr => exact absurd rfl hinet
  | sockaddrIn | sockaddrIn6 => simp [SocketAddress.assignPort, SocketAddress.to?, htype]

theorem Resolves.built (h : Resolves resolver family bytes) (old : SocketAddress) :
    Built o old bytes family port ((old.copy bytes).setPort o (o.htons port)) where
  family := by rw [SocketAddress.family_setPort, h.family_copy]
  port := by rw [SocketAddress.port_setPort, ByteOrder.ntohs_htons]
  rest i hi h2 h3 := by rw [SocketAddress.getElem_setPort hi h2 h3, SocketAddress.getElem_copy]

/-- What was in the storage before does not matter for the bytes of the structure. -/
theorem agree_setPort_copy (a b : SocketAddress) (v : UInt16) :
    Agree bytes.length ((a.copy bytes).setPort o v) ((b.copy bytes).setPort o v) := by
  intro i hi hlt
  by_cases h2 : i = 2
  · subst h2
    simp [SocketAddress.setPort]
  · by_cases h3 : i = 3
    · subst h3
      simp [SocketAddress.setPort]
    · rw [SocketAddress.getElem_setPort hi h2 h3, SocketAddress.getElem_setPort hi h2 h3,
        SocketAddress.getElem_copy, SocketAddress.getElem_copy, List.getElem?_eq_getElem hlt,
        Option.getD_some, Option.getD_some]

/-- The code of `listen`, `connect` and `bind` goes by the family. -/
theorem Resolves.resolveThenSetPort (h : Resolves resolver (inetFamily useIPv6) bytes)
    (address : SocketAddress) :
    Address.resolveThenSetPort o resolver address port useIPv6 =
      .value ((address.copy bytes).setPort o (o.htons port)) := by
  have hfamily := h.family_copy address
  simp only [Address.resolveThenSetPort, h.addrinfo]
  generalize address.copy bytes = a at hfamily
  cases useIPv6 with
  | false => exact assignPort_of_family (by decide) hfamily.symm
  | true => exact assignPort_of_family (by decide) hfamily.symm

theorem assignPort_sockaddrIn {a : SocketAddress} (hfamily : a.family = inetFamily useIPv6) :
    a.assignPort o .sockaddrIn port =
      if useIPv6 then .nullPointer else .value (a.setPort o (o.htons port)) := by
  cases useIPv6 with
  | false => exact assignPort_of_family (by decide) hfamily.symm
  | true => exact assignPort_of_ne (by decide) (by rw [hfamily]; decide)

/-- The constructor always goes by `sockaddr_in`. -/
theorem Resolves.ofHost (h : Resolves resolver (inetFamily useIPv6) bytes) :
    Address.ofHost o resolver port useIPv6 =
      if useIPv6 then .nullPointer
      else .value ((SocketAddress.empty.copy bytes).setPort o (o.htons port)) := by
  simp only [Address.ofHost, h.addrinfo]
  exact assignPort_sockaddrIn (h.family_copy _)

/-- So does `from`. -/
theorem Resolves.fromHost (h : Resolves resolver (inetFamily useIPv6) bytes) (error : String) :
    Address.fromHost o resolver port (inetFamily useIPv6) error =
      if useIPv6 then .nullPointer
      else .value ((SocketAddress.empty.copy bytes).setPort o (o.htons port)) := by
  have hinet : ¬ (inetFamily useIPv6 ≠ AF_INET ∧ inetFamily useIPv6 ≠ AF_INET6) := by
    cases useIPv6 <;> decide
  simp only [Address.fromHost, h.addrinfo, h.family_copy, if_neg hinet]
  exact assignPort_sockaddrIn (h.family_copy _)

/-- Whatever address of the family that was asked for `getaddrinfo` returns, and whatever is in the
address of a socket before: the constructor, `from`, and the code of `listen` and `connect` all end
with one address, which is that of `getaddrinfo` with the port, exactly if the family is `AF_INET`. -/
theorem routes_agree_iff (o : ByteOrder) (h : Resolves resolver (inetFamily useIPv6) bytes)
    (port : UInt16) (error : String) (old : SocketAddress) :
    (∃ a b, Address.ofHost o resolver port useIPv6 = .value a ∧
      Address.fromHost o resolver port (inetFamily useIPv6) error = .value a ∧
      Address.resolveThenSetPort o resolver old port useIPv6 = .value b ∧
      Built o .empty bytes (inetFamily useIPv6) port a ∧
      Built o old bytes (inetFamily useIPv6) port b ∧ Agree bytes.length a b) ↔
      useIPv6 = false := by
  rw [h.ofHost, h.fromHost, h.resolveThenSetPort]
  cases useIPv6 with
  | true => simp
  | false =>
    exact iff_of_true ⟨_, _, rfl, rfl, rfl, h.built .empty, h.built old,
      agree_setPort_copy .empty old _⟩ rfl

end Routes

/-- 127.0.0.1 and ::1, for the family that is asked for. -/
def loopback : Resolver := fun family _ =>
  .ok [if family = AF_INET6 then
    [28, AF_INET6, 0, 0, 0, 0, 0, 0] ++ List.replicate 15 0 ++ [1, 0, 0, 0, 0]
  else [16, AF_INET, 0, 0, 127, 0, 0, 1] ++ List.replicate 8 0]

theorem loopback_resolves (useIPv6 : Bool) : ∃ bytes,
    Resolves loopback (inetFamily useIPv6) bytes := by
  cases useIPv6 <;>
    exact ⟨_, ⟨0, by decide, by simp, [], rfl⟩, by decide, by decide, by decide⟩

theorem routes_agree_iff_loopback :
    (∃ a b, ofHost .little loopback 8080 false = .value a ∧
      fromHost .little loopback 8080 AF_INET "" = .value a ∧
      resolveThenSetPort .little loopback .empty 8080 false = .value b ∧
      Built .little .empty ([16, AF_INET, 0, 0, 127, 0, 0, 1] ++ List.replicate 8 0) AF_INET 8080
        a ∧
      Built .little .empty ([16, AF_INET, 0, 0, 127, 0, 0, 1] ++ List.replicate 8 0) AF_INET 8080
        b ∧ Agree 16 a b) ↔ false = false := by
  have hresolves : Resolves loopback (inetFamily false)
      ([16, AF_INET, 0, 0, 127, 0, 0, 1] ++ List.replicate 8 0) :=
    ⟨⟨0, by decide, by simp, [], rfl⟩, by decide, by decide, by decide⟩
  exact routes_agree_iff .little hresolves 8080 "" .empty

/-- The constructor and `from` dereference a null pointer for an IPv6 address. -/
theorem ipv6_routes_null : ¬ ∀ (o : ByteOrder) (resolver : Resolver) (useIPv6 : Bool)
    (bytes : List UInt8) (port : UInt16) (error : String) (old : SocketAddress),
    Resolves resolver (inetFamily useIPv6) bytes →
    ∃ a b, ofHost o resolver port useIPv6 = .value a ∧
      fromHost o resolver port (inetFamily useIPv6) error = .value a ∧
      resolveThenSetPort o resolver old port useIPv6 = .value b ∧
      Built o .empty bytes (inetFamily useIPv6) port a ∧
      Built o old bytes (inetFamily useIPv6) port b ∧ Agree bytes.length a b := by
  intro hall
  obtain ⟨bytes, hresolves⟩ := loopback_resolves true
  obtain ⟨a, b, ha, -⟩ := hall .little loopback true bytes 8080 "" .empty hresolves
  have hnull : ofHost .little loopback 8080 true = .nullPointer := by decide
  rw [hnull] at ha
  exact absurd ha (by simp)

end Unisock.Address
