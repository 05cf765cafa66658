import Unisock.Address.Resolve
import Unisock.Lib.InetText

/-! The texts of an address: `socket_address::get_ip` and `socket_address::to_string`. -/

namespace Unisock.Address

open InetText

namespace Outcome

def bind {α β : Type} (x : Outcome α) (f : α → Outcome β) : Outcome β :=
  match x with
  | .value a => f a
  | .failed => .failed
  | .thrown what => .thrown what
  | .nullPointer => .nullPointer

instance : Monad Outcome where
  pure := .value
  bind := bind

@[simp] theorem value_bind {α β : Type} (a : α) (f : α → Outcome β) :
    (Outcome.value a >>= f) = f a := rfl

@[simp] theorem nullPointer_bind {α β : Type} (f : α → Outcome β) :
    (Outcome.nullPointer >>= f) = .nullPointer := rfl

@[simp] theorem pure_eq {α : Type} (a : α) : (pure a : Outcome α) = .value a := rfl

end Outcome

def ENOSPC : Int := 28

/-- `socket_address::IP_ADDRESS_BUFFER_SIZE`. -/
def IP_ADDRESS_BUFFER_SIZE : Nat := 128

/-- `inet_ntop` on an address with this text. -/
def inetNtop (text : String) (size : Nat) : Except Int String :=
  if text.length + 1 ≤ size then .ok text else .error ENOSPC

/-- What a call of `to_string` finds around it: the results of `getnameinfo`, `errno` after them, and
`strerror`. -/
structure Surroundings where
  getnameinfo : Nat → Except Int String
  errno : Int
  strerror : Int → String

namespace SocketAddress

/-- `*to<type>()`. -/
def deref (a : SocketAddress) (type : AddressType) : Outcome SocketAddress :=
  match a.to? type with
  | none => .nullPointer
  | some sa => .value sa

/-- The text of `sin_addr`. -/
def sinAddr (a : SocketAddress) : String :=
  text4 a.address[4] a.address[5] a.address[6] a.address[7]

/-- The text of `sin6_addr`. -/
def sin6Addr (a : SocketAddress) : String :=
  text6 (List.ofFn fun i : Fin 8 =>
      ByteOrder.big.load (a.address[8 + 2 * i.val], a.address[9 + 2 * i.val]))
    a.address[20] a.address[21] a.address[22] a.address[23]

/-- The two branches of `get_ip`, for the internet families. -/
def ntop (strerror : Int → String) (text : String) (size : Nat) : String :=
  match inetNtop text size with
  | .error errno => "[inet_ntop error: " ++ strerror errno ++ "]"
  | .ok ip => ip

/-- `socket_address::get_ip`, which gives `inet_ntop` the length of the address for the size of its
buffer. -/
def getIp (strerror : Int → String) (a : SocketAddress) : Outcome String :=
  if a.family = AF_INET then do
    let sin ← a.deref .sockaddrIn
    return ntop strerror sin.sinAddr a.size
  else if a.family = AF_INET6 then do
    let sin6 ← a.deref .sockaddrIn6
    return ntop strerror sin6.sin6Addr a.size
  else return "[invalid address family]"

/-- The text that `inet_ntop` has for the address. -/
def ipText (a : SocketAddress) : String := if a.family = AF_INET then a.sinAddr else a.sin6Addr

/-- An IPv4 or an IPv6 address, with the length of its structure. -/
structure Internet (a : SocketAddress) : Prop where
  family : a.family = AF_INET ∨ a.family = AF_INET6
  size : a.size = inetLength a.family

section GetIp

variable {a : SocketAddress} {strerror : Int → String}

theorem deref_sockaddrIn (hfamily : a.family = AF_INET) : a.deref .sockaddrIn = .value a := by
  rw [deref, to?_sockaddrIn, if_pos hfamily]

theorem deref_sockaddrIn6 (hfamily : a.family = AF_INET6) : a.deref .sockaddrIn6 = .value a := by
  rw [deref, to?_sockaddrIn6, if_pos hfamily]

theorem deref_sockaddrIn_of_ne (hfamily : a.family ≠ AF_INET) :
    a.deref .sockaddrIn = .nullPointer := by
  rw [deref, to?_sockaddrIn, if_neg hfamily]

/-- `get_ip` never dereferences a null pointer: each branch goes by its own family. -/
theorem getIp_eq (h : a.family = AF_INET ∨ a.family = AF_INET6) :
    a.getIp strerror = .value (ntop strerror a.ipText a.size) := by
  rcases h with hfamily | hfamily
  · simp [getIp, ipText, hfamily, deref_sockaddrIn]
  · have hne : AF_INET6 ≠ AF_INET := by decide
    simp [getIp, ipText, hfamily, hne, deref_sockaddrIn6]

theorem not_mem_ipText (a : SocketAddress) : '[' ∉ a.ipText.toList := by
  unfold ipText
  split
  · exact not_mem_text4 _ _ _ _
  · exact not_mem_text6 _ _ _ _ _

/-- The error of `get_ip` is no text of an address. -/
theorem ntop_eq_iff (a : SocketAddress) (size : Nat) :
    ntop strerror a.ipText size = a.ipText ↔ a.ipText.length < size := by
  rw [ntop, inetNtop]
  split_ifs with hfits
  · exact iff_of_true rfl (by omega)
  · refine iff_of_false (fun herror => not_mem_ipText a ?_) (by omega)
    rw [← herror]
    simp

theorem length_ipText (a : SocketAddress) : a.ipText.length < IP_ADDRESS_BUFFER_SIZE := by
  unfold ipText IP_ADDRESS_BUFFER_SIZE
  split
  · have hlength := length_text4 a.address[4] a.address[5] a.address[6] a.address[7]
    rw [sinAddr]
    omega
  · rw [sin6Addr]
    exact Nat.lt_of_le_of_lt (length_text6 ..) (by decide)

/-- The buffer of `get_ip` holds the text of every address, but `inet_ntop` is told the length of the
address structure: the text is returned exactly if it is one of IPv4, or shorter than that. -/
theorem getIp_eq_ipText_iff (h : a.Internet) (strerror : Int → String) :
    a.getIp strerror = .value a.ipText ↔ a.family = AF_INET ∨ a.ipText.length < 28 := by
  rw [getIp_eq h.family, Outcome.value.injEq, ntop_eq_iff, h.size]
  rcases h.family with hfamily | hfamily
  · have hshort : a.ipText.length ≤ 15 := by
      rw [ipText, if_pos hfamily]
      exact length_text4 ..
    have hlength : inetLength AF_INET = 16 := by decide
    rw [hfamily, hlength]
    exact iff_of_true (by omega) (.inl rfl)
  · have hlength : inetLength AF_INET6 = 28 := by decide
    have hne : AF_INET6 ≠ AF_INET := by decide
    rw [hfamily, hlength]
    exact (or_iff_right hne).symm

end GetIp

/-- ::1. -/
def loopback6 : SocketAddress :=
  empty.copy ([28, AF_INET6, 0, 0, 0, 0, 0, 0] ++ List.replicate 15 0 ++ [1, 0, 0, 0, 0])

/-- 2001:db8:1111:2222:3333:4444:5555:6666. -/
def long6 : SocketAddress :=
  empty.copy [28, AF_INET6, 0, 0, 0, 0, 0, 0, 0x20, 0x01, 0x0d, 0xb8, 0x11, 0x11, 0x22, 0x22, 0x33,
    0x33, 0x44, 0x44, 0x55, 0x55, 0x66, 0x66, 0, 0, 0, 0]

theorem getIp_eq_ipText_iff_loopback6 :
    loopback6.getIp (fun _ => "No space left on device") = .value loopback6.ipText ↔
      loopback6.family = AF_INET ∨ loopback6.ipText.length < 28 :=
  getIp_eq_ipText_iff ⟨by decide, by decide⟩ _

/-- The text of a long IPv6 address is not returned, although the buffer would hold it. -/
theorem getIp_long6 : ¬ ∀ a : SocketAddress, a.Internet → ∀ strerror : Int → String,
    a.getIp strerror = .value a.ipText := by
  intro hall
  have hip := hall long6 ⟨by decide, by decide⟩ fun _ => "No space left on device"
  rw [getIp_eq (.inr (by decide)), Outcome.value.injEq, ntop_eq_iff] at hip
  exact absurd hip (by decide)

/-! ### `to_string` -/

/-- A line that `to_string` prints: its label and what follows. -/
abbrev Line := String × String

def render (lines : List Line) : String := String.join (lines.map fun l => l.1 ++ l.2 ++ "\n")

/-- `host`, at the begin of `_to_string`. -/
def hostText (s : Surroundings) : String :=
  match nameinfo s.getnameinfo "" with
  | (.success, host) => host
  | _ => "could not retrieve host: " ++ s.strerror s.errno

/-- `sin_zero`, as it is printed. -/
def sinZero (a : SocketAddress) : String :=
  String.join (List.ofFn fun i : Fin 8 => toString a.address[8 + i.val].toInt8.toInt ++ " ")

/-- A 32-bit field at the offset `i`, as the host loads it. -/
def dword (o : ByteOrder) (a : SocketAddress) (i : Fin 125) : UInt32 :=
  let first := (o.load (a.address[i.val], a.address[i.val + 1])).toUInt32
  let second := (o.load (a.address[i.val + 2], a.address[i.val + 3])).toUInt32
  if o = .little then first ||| (second <<< 16) else (first <<< 16) ||| second

/-- `_to_string<AF_INET>`. -/
def lines4 (o : ByteOrder) (s : Surroundings) (a : SocketAddress) : Outcome (List Line) := do
  let ip ← a.getIp s.strerror
  let sin ← a.deref .sockaddrIn
  return [("sin_len:     ", toString a.size),
    ("sin_family:  ", "AF_INET"),
    ("sin_addr:    ", ip ++ " (" ++ hostText s ++ ")"),
    ("sin_port:    ", toString (sin.port o).toNat),
    ("sin_zero:    ", sin.sinZero)]

/-- `_to_string<AF_INET6>`.  The port is read through `sockaddr_in`. -/
def lines6 (o : ByteOrder) (s : Surroundings) (a : SocketAddress) : Outcome (List Line) := do
  let ip ← a.getIp s.strerror
  let sin ← a.deref .sockaddrIn
  let sin6 ← a.deref .sockaddrIn6
  return [("sin6_len:    ", toString a.size),
    ("sin6_family: ", "AF_INET6"),
    ("sin6_addr:   ", ip ++ " (" ++ hostText s ++ ")"),
    ("sin6_port:   ", toString (sin.port o).toNat),
    ("sin6_flowinfo: ", toString (sin6.dword o 4).toInt32.toInt),
    ("sin6_scope_id: ", toString (sin6.dword o 24).toInt32.toInt)]

/-- `socket_address::to_string`. -/
def toString (o : ByteOrder) (s : Surroundings) (a : SocketAddress) : Outcome String :=
  if a.family = AF_INET then return render (← a.lines4 o s)
  else if a.family = AF_INET6 then return render (← a.lines6 o s)
  else if a.family = AF_UNIX then return "unkown address family: " ++ ToString.toString a.family.toNat
  else if a.family = AF_UNSPEC then
    return "sa_family: AF_UNSPEC\nsa_len: " ++ ToString.toString a.size ++ "\n"
  else return "unknown address family: " ++ ToString.toString a.family.toNat ++ "\n"

/-- The lines that `to_string` prints for an address of an internet family. -/
def lines (o : ByteOrder) (s : Surroundings) (a : SocketAddress) : Outcome (List Line) :=
  if a.family = AF_INET then a.lines4 o s else a.lines6 o s

def portLabel (family : Family) : String :=
  if family = AF_INET then "sin_port:    " else "sin6_port:   "

/-- `to_string` is defined, and has this port on its port line. -/
def PrintsPort (o : ByteOrder) (s : Surroundings) (a : SocketAddress) (port : UInt16) : Prop :=
  ∃ lines, a.lines o s = .value lines ∧ a.toString o s = .value (render lines) ∧
    lines.lookup (portLabel a.family) = some (ToString.toString port.toNat)

section ToString

variable {o : ByteOrder} {s : Surroundings} {a : SocketAddress} {port : UInt16}

theorem toString_eq {lines : List Line} (h : a.family = AF_INET ∨ a.family = AF_INET6)
    (hlines : a.lines o s = .value lines) : a.toString o s = .value (render lines) := by
  rcases h with hfamily | hfamily
  · rw [SocketAddress.lines, if_pos hfamily] at hlines
    rw [toString, if_pos hfamily, hlines, Outcome.value_bind, Outcome.pure_eq]
  · have hne : a.family ≠ AF_INET := by
      rw [hfamily]
      decide
    rw [SocketAddress.lines, if_neg hne] at hlines
    rw [toString, if_neg hne, if_pos hfamily, hlines, Outcome.value_bind, Outcome.pure_eq]

theorem toString_port_inj {v w : UInt16} :
    ToString.toString v.toNat = ToString.toString w.toNat ↔ v = w := by
  constructor
  · intro h
    have hdigits : Nat.toDigits 10 v.toNat = Nat.toDigits 10 w.toNat := by
      simpa only [Nat.toString_eq_repr, Nat.toList_repr] using congrArg String.toList h
    have hparsed := congrArg (fun digits => Nat.ofDigitChars 10 digits 0) hdigits
    simp only [Nat.ofDigitChars_ten_toDigits] at hparsed
    exact UInt16.toNat_inj.mp hparsed
  · rintro rfl
    rfl

/-- The port of an IPv4 address is printed as the host loads it. -/
theorem printsPort_sockaddrIn (hfamily : a.family = AF_INET) :
    a.PrintsPort o s port ↔ a.port o = port := by
  have hlines : a.lines o s = .value [("sin_len:     ", ToString.toString a.size),
      ("sin_family:  ", "AF_INET"),
      ("sin_addr:    ", ntop s.strerror a.ipText a.size ++ " (" ++ hostText s ++ ")"),
      ("sin_port:    ", ToString.toString (a.port o).toNat),
      ("sin_zero:    ", a.sinZero)] := by
    simp [lines, lines4, hfamily, getIp_eq, deref_sockaddrIn]
  have htext := toString_eq (.inl hfamily) hlines
  have hlookup : portLabel a.family = "sin_port:    " := by rw [portLabel, if_pos hfamily]
  rw [PrintsPort, hlines, htext, hlookup]
  simp only [Outcome.value.injEq]
  constructor
  · rintro ⟨_, rfl, -, hport⟩
    exact toString_port_inj.mp (Option.some.inj hport)
  · rintro rfl
    exact ⟨_, rfl, rfl, rfl⟩

/-- For an IPv6 address the port is read through a null pointer. -/
theorem not_printsPort_sockaddrIn6 (hfamily : a.family = AF_INET6) : ¬ a.PrintsPort o s port := by
  have hne : a.family ≠ AF_INET := by
    rw [hfamily]
    decide
  have hlines : a.lines o s = .nullPointer := by
    rw [lines, if_neg hne, lines6, getIp_eq (.inr hfamily), Outcome.value_bind,
      deref_sockaddrIn_of_ne hne, Outcome.nullPointer_bind]
  rintro ⟨_, hvalue, -⟩
  rw [hlines] at hvalue
  cases hvalue

end ToString

end SocketAddress

/-- On a little-endian host, an address with a port that has been resolved the way `listen` does it:
`to_string` prints the port exactly if the address is one of IPv4 and both bytes of the port are the
same. -/
theorem toString_port_iff {resolver : Resolver} {useIPv6 : Bool} {bytes : List UInt8}
    (h : Resolves resolver (inetFamily useIPv6) bytes) (old : SocketAddress) (port : UInt16)
    (s : Surroundings) :
    (∃ a, resolveThenSetPort .little resolver old port useIPv6 = .value a ∧
      a.PrintsPort .little s port) ↔ useIPv6 = false ∧ port.toNat % 257 = 0 := by
  have hfamily : ((old.copy bytes).setPort .little (ByteOrder.little.htons port)).family =
      inetFamily useIPv6 := by rw [SocketAddress.family_setPort, h.family_copy]
  rw [h.resolveThenSetPort]
  simp only [Outcome.value.injEq, exists_eq_left']
  cases useIPv6 with
  | true =>
    exact iff_of_false (SocketAddress.not_printsPort_sockaddrIn6 hfamily) fun h => by cases h.1
  | false =>
    rw [SocketAddress.printsPort_sockaddrIn hfamily, SocketAddress.port_setPort, ByteOrder.htons,
      ByteOrder.swap_eq_self_iff, ByteOrder.high_eq_low_iff]
    exact (and_iff_right rfl).symm

/-- A host whose resolver knows 127.0.0.1 as localhost. -/
def localhost : Surroundings := ⟨fun _ => .ok "localhost", 0, fun _ => ""⟩

theorem toString_port_iff_loopback :
    (∃ a, resolveThenSetPort .little loopback .empty 257 false = .value a ∧
      a.PrintsPort .little localhost 257) ↔
      false = false ∧ (257 : UInt16).toNat % 257 = 0 := by
  have hresolves : Resolves loopback (inetFamily false)
      ([16, AF_INET, 0, 0, 127, 0, 0, 1] ++ List.replicate 8 0) :=
    ⟨⟨0, by decide, by simp, [], rfl⟩, by decide, by decide, by decide⟩
  exact toString_port_iff hresolves .empty 257 localhost

/-- The port 8080 of 127.0.0.1 is printed as 36895. -/
theorem toString_port_swapped : ¬ ∀ (resolver : Resolver) (useIPv6 : Bool) (bytes : List UInt8)
    (old : SocketAddress) (port : UInt16) (s : Surroundings),
    Resolves resolver (inetFamily useIPv6) bytes →
    ∃ a, resolveThenSetPort .little resolver old port useIPv6 = .value a ∧
      a.PrintsPort .little s port := by
  intro hall
  obtain ⟨bytes, hresolves⟩ := loopback_resolves false
  obtain ⟨a, ha, hprints⟩ := hall loopback false bytes .empty 8080 localhost hresolves
  rw [hresolves.resolveThenSetPort, Outcome.value.injEq] at ha
  subst ha
  rw [SocketAddress.printsPort_sockaddrIn
    (SocketAddress.family_setPort.trans (hresolves.family_copy _)),
    SocketAddress.port_setPort] at hprints
  exact absurd hprints (by decide)

end Unisock.Address
