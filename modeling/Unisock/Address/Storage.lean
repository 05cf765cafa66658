import Unisock.Lib.ByteOrder

/-! `socket_address`: the bytes of a `sockaddr_storage`, and the structures of the address families
that are laid over them.  The layout is the one with `sa_len` in front, which the source relies on:
the length at offset 0, the family at 1, the port of both internet families at 2. -/

namespace Unisock.Address

/-- `sa_family_t`. -/
abbrev Family := UInt8

def AF_UNSPEC : Family := 0

def AF_UNIX : Family := 1

def AF_INET : Family := 2

def AF_INET6 : Family := 30

/-- `use_IPv6 ? AF_INET6 : AF_INET`. -/
def inetFamily (useIPv6 : Bool) : Family := if useIPv6 then AF_INET6 else AF_INET

/-- `socket_address`, with the bytes of `_address`; `ADDRESS_STORAGE_SIZE` is 128. -/
structure SocketAddress where
  address : Vector UInt8 128
deriving DecidableEq

/-- The structures that `to` reinterprets the storage as. -/
inductive AddressType
  | sockaddr
  | sockaddrIn
  | sockaddrIn6
deriving DecidableEq, Repr

/-- `address_family_of<_AddressType>::value`. -/
def AddressType.familyOf : AddressType → Family
  | .sockaddr => AF_UNSPEC
  | .sockaddrIn => AF_INET
  | .sockaddrIn6 => AF_INET6

namespace SocketAddress

/-- `socket_address::socket_address()`. -/
def empty : SocketAddress := ⟨Vector.replicate 128 0⟩

/-- `socket_address::size`. -/
def size (a : SocketAddress) : Nat := a.address[0].toNat

/-- `socket_address::family`. -/
def family (a : SocketAddress) : Family := a.address[1]

/-- `socket_address::to`: what the pointer points to, or `none` for `nullptr`.  The specialisation
for `sockaddr` does not look at the family. -/
def to? (a : SocketAddress) (type : AddressType) : Option SocketAddress :=
  match type with
  | .sockaddr => some a
  | .sockaddrIn | .sockaddrIn6 => if type.familyOf ≠ a.family then none else some a

/-- `sin_port` and `sin6_port`, as the host loads them. -/
def port (o : ByteOrder) (a : SocketAddress) : UInt16 := o.load (a.address[2], a.address[3])

/-- An assignment to `sin_port` or `sin6_port`. -/
def setPort (o : ByteOrder) (a : SocketAddress) (v : UInt16) : SocketAddress :=
  ⟨(a.address.set 2 (o.store v).1).set 3 (o.store v).2⟩

/-- `std::memcpy(&address, bytes, bytes.size())`. -/
def copy (a : SocketAddress) (bytes : List UInt8) : SocketAddress :=
  ⟨Vector.ofFn fun i : Fin 128 => bytes[i.val]?.getD a.address[i]⟩

section Fields

variable {o : ByteOrder} {a : SocketAddress} {v : UInt16}

@[simp] theorem family_setPort : (a.setPort o v).family = a.family := by
  simp [family, setPort]

@[simp] theorem size_setPort : (a.setPort o v).size = a.size := by
  simp [size, setPort]

@[simp] theorem port_setPort : (a.setPort o v).port o = v := by
  simp [port, setPort]

theorem getElem_setPort {i : Nat} (hi : i < 128) (h2 : i ≠ 2) (h3 : i ≠ 3) :
    (a.setPort o v).address[i] = a.address[i] := by
  simp [setPort, Ne.symm h2, Ne.symm h3]

theorem getElem_copy {bytes : List UInt8} {i : Nat} (hi : i < 128) :
    (a.copy bytes).address[i] = bytes[i]?.getD a.address[i] := by
  simp [copy]

theorem to?_sockaddrIn : a.to? .sockaddrIn = if a.family = AF_INET then some a else none := by
  by_cases h : a.family = AF_INET
  · simp [to?, AddressType.familyOf, h]
  · simp [to?, AddressType.familyOf, h, Ne.symm h]

theorem to?_sockaddrIn6 : a.to? .sockaddrIn6 = if a.family = AF_INET6 then some a else none := by
  by_cases h : a.family = AF_INET6
  · simp [to?, AddressType.familyOf, h]
  · simp [to?, AddressType.familyOf, h, Ne.symm h]

end Fields

end SocketAddress

end Unisock.Address
