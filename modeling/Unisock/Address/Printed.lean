import Mathlib
import Unisock.Address.Text
import Unisock.Lib.Delimited

/-! What the text of `to_string` says about an IPv4 address: all that is in its structure. -/

namespace Unisock.Address

open InetText Delimited

theorem byte_inj {x y : UInt8} (h : (toString x.toNat).toList = (toString y.toNat).toList) : x = y :=
  UInt8.toNat_inj.mp (decimal_inj h)

/-- The text of an IPv4 address has its four bytes. -/
theorem text4_inj {a b c d a' b' c' d' : UInt8} (h : text4 a b c d = text4 a' b' c' d') :
    a = a' ∧ b = b' ∧ c = c' ∧ d = d' := by
  have hdot : ∀ x : UInt8, '.' ∉ (toString x.toNat).toList := fun x => not_mem_decimal (by decide) _
  have htext : ∀ a b c d : UInt8, (text4 a b c d).toList = (toString a.toNat).toList ++
      '.' :: ((toString b.toNat).toList ++ '.' :: ((toString c.toNat).toList ++
        '.' :: (toString d.toNat).toList)) := by
    intro a b c d
    simp [text4]
  have hlist := congrArg String.toList h
  rw [htext, htext] at hlist
  obtain ⟨ha, hlist⟩ := first_inj hlist (hdot _) (hdot _)
  obtain ⟨hb, hlist⟩ := first_inj hlist (hdot _) (hdot _)
  obtain ⟨hc, hd⟩ := first_inj hlist (hdot _) (hdot _)
  exact ⟨byte_inj ha, byte_inj hb, byte_inj hc, byte_inj hd⟩

theorem blank_not_mem_text4 (a b c d : UInt8) : ' ' ∉ (text4 a b c d).toList := by
  have hdot : ' ' ∉ ".".toList := by decide
  have hbyte : ∀ x : UInt8, ' ' ∉ (toString x.toNat).toList := fun x => not_mem_decimal (by decide) _
  simp only [text4, String.toList_append, List.mem_append, not_or]
  exact ⟨⟨⟨⟨⟨⟨hbyte a, hdot⟩, hbyte b⟩, hdot⟩, hbyte c⟩, hdot⟩, hbyte d⟩

namespace SocketAddress

/-- A byte of `sockaddr_in`. -/
def sockaddrInByte (a : SocketAddress) (i : Fin 16) : UInt8 := a.address[i.val]

/-- The bytes of `sockaddr_in` are the same. -/
def SameSockaddrIn (a b : SocketAddress) : Prop := ∀ i, a.sockaddrInByte i = b.sockaddrInByte i

/-- The lines of `_to_string<AF_INET>`, with these values in them. -/
def lines4Of (size : Nat) (ip host : String) (port : Nat) (zeros : String) : List Line :=
  [("sin_len:     ", ToString.toString size),
    ("sin_family:  ", "AF_INET"),
    ("sin_addr:    ", ip ++ " (" ++ host ++ ")"),
    ("sin_port:    ", ToString.toString port),
    ("sin_zero:    ", zeros)]

section Printed

variable {o : ByteOrder} {s s' : Surroundings} {a b : SocketAddress}

theorem toList_lines4Of (size : Nat) (ip host : String) (port : Nat) (zeros : String) :
    (render (lines4Of size ip host port zeros)).toList =
      ("sin_len:     ".toList ++ (ToString.toString size).toList) ++ '\n' ::
        ("sin_family:  AF_INET\nsin_addr:    ".toList ++ (ip.toList ++ ' ' ::
          (((('(' :: host.toList ++ [')']) ++ '\n' ::
            ("sin_port:    ".toList ++ (ToString.toString port).toList)) ++ '\n' ::
              ("sin_zero:    ".toList ++ zeros.toList)) ++ ['\n']))) := by
  simp [render, lines4Of]

/-- A line that ends in a number has no other end. -/
theorem newline_not_mem_line {label : String} (hlabel : '\n' ∉ label.toList) (n : Nat) :
    '\n' ∉ label.toList ++ (ToString.toString n).toList := by
  rw [List.mem_append, not_or]
  exact ⟨hlabel, not_mem_decimal (by decide) n⟩

section Render

variable {size size' port port' : Nat} {ip ip' host host' zeros zeros' : String}

/-- The length is on the first line. -/
theorem size_of_lines4Of
    (h : render (lines4Of size ip host port zeros) =
      render (lines4Of size' ip' host' port' zeros')) : size = size' := by
  have hlist := congrArg String.toList h
  rw [toList_lines4Of, toList_lines4Of] at hlist
  obtain ⟨hn, -⟩ := first_inj hlist (newline_not_mem_line (by decide) _)
    (newline_not_mem_line (by decide) _)
  exact decimal_inj (List.append_cancel_left hn)

/-- The other values can be read off the text too, whatever the host is named. -/
theorem values_of_lines4Of
    (h : render (lines4Of size ip host port zeros) = render (lines4Of size ip' host' port' zeros'))
    (hip : ' ' ∉ ip.toList) (hip' : ' ' ∉ ip'.toList) (hzeros : '\n' ∉ zeros.toList)
    (hzeros' : '\n' ∉ zeros'.toList) :
    ip = ip' ∧ host = host' ∧ port = port' ∧ zeros = zeros' := by
  have hlist := congrArg String.toList h
  rw [toList_lines4Of, toList_lines4Of] at hlist
  have hbehind := List.append_cancel_left (List.cons.inj (List.append_cancel_left hlist)).2
  obtain ⟨hi, hrest⟩ := first_inj hbehind hip hip'
  -- the name of the host may contain anything, so the rest is read from the end
  obtain ⟨hfront, hz⟩ := last_inj (List.append_cancel_right hrest) (by simpa using hzeros)
    (by simpa using hzeros')
  obtain ⟨hhost, hp⟩ := last_inj hfront (newline_not_mem_line (by decide) _)
    (newline_not_mem_line (by decide) _)
  exact ⟨String.toList_inj.mp hi,
    String.toList_inj.mp (List.append_cancel_right (List.cons.inj hhost).2),
    decimal_inj (List.append_cancel_left hp), String.toList_inj.mp (List.append_cancel_left hz)⟩

end Render

theorem toList_sinZero (a : SocketAddress) :
    a.sinZero.toList = (List.ofFn fun i : Fin 8 => a.sockaddrInByte (Fin.natAdd 8 i)).flatMap
      fun x => (ToString.toString x.toInt8.toInt).toList ++ [' '] := by
  have hmap : a.sinZero = String.join ((List.ofFn fun i : Fin 8 =>
      a.sockaddrInByte (Fin.natAdd 8 i)).map fun x => ToString.toString x.toInt8.toInt ++ " ") := by
    rw [List.map_ofFn]
    rfl
  rw [hmap, String.toList_join, List.flatMap_map]
  simp [String.toList_append]

theorem newline_not_mem_sinZero (a : SocketAddress) : '\n' ∉ a.sinZero.toList := by
  rw [toList_sinZero, List.mem_flatMap]
  rintro ⟨x, -, hx⟩
  rcases List.mem_append.mp hx with hx | hx
  · exact not_mem_integer (by decide) (by decide) _ hx
  · exact absurd hx (by decide)

/-- The padding is printed byte by byte. -/
theorem sinZero_inj (h : a.sinZero = b.sinZero) (i : Fin 8) :
    a.sockaddrInByte (Fin.natAdd 8 i) = b.sockaddrInByte (Fin.natAdd 8 i) := by
  have hinj : Function.Injective fun x : UInt8 => (ToString.toString x.toInt8.toInt).toList := by
    intro x y hxy
    have hsigned : x.toInt8 = y.toInt8 := Int8.toInt_inj.mp (integer_inj hxy)
    exact congrArg Int8.toUInt8 hsigned
  have hblank : ∀ x : UInt8, ' ' ∉ (ToString.toString x.toInt8.toInt).toList :=
    fun x => not_mem_integer (by decide) (by decide) _
  have hlist := congrArg String.toList h
  rw [toList_sinZero, toList_sinZero] at hlist
  exact congrFun (List.ofFn_injective (flatMap_inj hinj hblank hlist)) i

theorem toString_sockaddrIn (hfamily : a.family = AF_INET) :
    a.toString o s = .value (render (lines4Of a.size (ntop s.strerror a.ipText a.size) (hostText s)
      (a.port o).toNat a.sinZero)) := by
  refine toString_eq (.inl hfamily) ?_
  simp [lines, lines4, lines4Of, hfamily, getIp_eq, deref_sockaddrIn]

/-- The length of the structure is no less than that of its text. -/
theorem ntop_sinAddr (hfamily : a.family = AF_INET) (hsize : 16 ≤ a.size)
    (strerror : Int → String) : ntop strerror a.ipText a.size = a.sinAddr := by
  have hshort : a.sinAddr.length ≤ 15 := length_text4 ..
  have htext : a.ipText = a.sinAddr := by rw [ipText, if_pos hfamily]
  rw [← htext, ntop_eq_iff, htext]
  omega

/-- No text of another family begins like one of IPv4. -/
theorem family_of_toString {text : String} (h : a.toString o s = .value text)
    (hstart : text.toList.take 4 = ['s', 'i', 'n', '_']) : a.family = AF_INET := by
  by_contra hne
  rw [toString, if_neg hne] at h
  by_cases h6 : a.family = AF_INET6
  · have hlines : a.lines6 o s = .nullPointer := by
      rw [lines6, getIp_eq (.inr h6), Outcome.value_bind, deref_sockaddrIn_of_ne hne,
        Outcome.nullPointer_bind]
    rw [if_pos h6, hlines, Outcome.nullPointer_bind] at h
    cases h
  rw [if_neg h6] at h
  split_ifs at h <;> obtain rfl := Outcome.value.inj h <;> simp at hstart

theorem start_lines4Of (size : Nat) (ip host : String) (port : Nat) (zeros : String) :
    (render (lines4Of size ip host port zeros)).toList.take 4 = ['s', 'i', 'n', '_'] := by
  simp [render, lines4Of]

theorem SameSockaddrIn.values (h : a.SameSockaddrIn b) :
    a.size = b.size ∧ a.family = b.family ∧ a.port o = b.port o ∧ a.sinAddr = b.sinAddr ∧
      a.sinZero = b.sinZero := by
  refine ⟨congrArg UInt8.toNat (h 0), h 1, ?_, ?_, ?_⟩
  · show o.load (a.sockaddrInByte 2, a.sockaddrInByte 3) =
      o.load (b.sockaddrInByte 2, b.sockaddrInByte 3)
    rw [h 2, h 3]
  · show text4 (a.sockaddrInByte 4) (a.sockaddrInByte 5) (a.sockaddrInByte 6) (a.sockaddrInByte 7) =
      text4 (b.sockaddrInByte 4) (b.sockaddrInByte 5) (b.sockaddrInByte 6) (b.sockaddrInByte 7)
    rw [h 4, h 5, h 6, h 7]
  · refine String.toList_inj.mp ?_
    rw [toList_sinZero, toList_sinZero]
    simp only [h _]

theorem word_inj {x y x' y' : UInt8} (h : ByteOrder.word x y = ByteOrder.word x' y') :
    x = x' ∧ y = y' := by
  have hhigh := congrArg ByteOrder.high h
  have hlow := congrArg ByteOrder.low h
  rw [ByteOrder.high_word, ByteOrder.high_word] at hhigh
  rw [ByteOrder.low_word, ByteOrder.low_word] at hlow
  exact ⟨hhigh, hlow⟩

theorem port_inj (h : a.port o = b.port o) :
    a.sockaddrInByte 2 = b.sockaddrInByte 2 ∧ a.sockaddrInByte 3 = b.sockaddrInByte 3 := by
  cases o with
  | little => exact (word_inj h).symm
  | big => exact word_inj h

/-- Conversely, the values make up the bytes. -/
theorem sameSockaddrIn_of_values (hsize : a.size = b.size) (hfamily : a.family = b.family)
    (hport : a.port o = b.port o) (hip : a.sinAddr = b.sinAddr) (hzero : a.sinZero = b.sinZero) :
    a.SameSockaddrIn b := by
  obtain ⟨h2, h3⟩ := port_inj hport
  obtain ⟨h4, h5, h6, h7⟩ := text4_inj hip
  rintro ⟨i, hi⟩
  rcases Nat.lt_or_ge i 8 with hlt | hge
  · interval_cases i
    · exact UInt8.toNat_inj.mp hsize
    · exact hfamily
    all_goals assumption
  · obtain ⟨k, rfl⟩ := Nat.exists_eq_add_of_le hge
    exact sinZero_inj hzero ⟨k, by omega⟩

/-- The text of an IPv4 address is that of no other address, whatever names `getnameinfo` has for the
two: it determines the name and the bytes of the structure, and these determine it. -/
theorem toString_eq_toString_iff (hfamily : a.family = AF_INET) (hsize : 16 ≤ a.size) :
    a.toString o s = b.toString o s' ↔ a.SameSockaddrIn b ∧ hostText s = hostText s' := by
  have ha : a.toString o s = _ := toString_sockaddrIn hfamily
  rw [ntop_sinAddr hfamily hsize] at ha
  constructor
  · intro h
    have hfamily' : b.family = AF_INET :=
      family_of_toString (h.symm.trans ha) (start_lines4Of _ _ _ _ _)
    rw [ha, toString_sockaddrIn hfamily', Outcome.value.injEq] at h
    have hsize' := size_of_lines4Of h
    rw [ntop_sinAddr hfamily' (hsize' ▸ hsize), ← hsize'] at h
    obtain ⟨hip, hhost, hport, hzero⟩ := values_of_lines4Of h (blank_not_mem_text4 _ _ _ _)
      (blank_not_mem_text4 _ _ _ _) (newline_not_mem_sinZero a) (newline_not_mem_sinZero b)
    have hsame := sameSockaddrIn_of_values hsize' (hfamily.trans hfamily'.symm)
      (UInt16.toNat_inj.mp hport) hip hzero
    exact ⟨hsame, hhost⟩
  · rintro ⟨hsame, hhost⟩
    obtain ⟨hsize', hfamily', hport, hip, hzero⟩ := hsame.values (o := o)
    have hb : b.toString o s' = _ := toString_sockaddrIn (hfamily' ▸ hfamily)
    rw [ntop_sinAddr (hfamily' ▸ hfamily) (hsize' ▸ hsize)] at hb
    rw [ha, hb, hsize', hip, hhost, hport, hzero]

end Printed

/-- 127.0.0.1, port 8080. -/
def loopback8080 : SocketAddress := empty.copy [16, AF_INET, 0x1f, 0x90, 127, 0, 0, 1]

/-- A host whose resolver knows no names. -/
def nameless : Surroundings := ⟨fun _ => .error 8, 0, fun _ => "Undefined error: 0"⟩

theorem toString_eq_toString_iff_loopback :
    loopback8080.toString .little localhost =
        (loopback8080.setPort .little 8080).toString .little nameless ↔
      loopback8080.SameSockaddrIn (loopback8080.setPort .little 8080) ∧
        hostText localhost = hostText nameless :=
  toString_eq_toString_iff (by decide) (by decide)

end SocketAddress

end Unisock.Address
