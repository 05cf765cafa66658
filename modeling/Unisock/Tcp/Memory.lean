import Mathlib.Logic.Function.Basic
import Mathlib.Data.List.Sort
import Mathlib.Tactic.Linarith
import Unisock.Tcp.Connection

/-! The sockets of all servers and clients that share one handler: the container maps, the handler,
and the descriptors that the kernel has open for them, with the operations of `socket_container` and
`socket` that change them. -/

namespace Unisock.Tcp

open Unisock.Events

/-- `socket_container::sockets`: `std::map<int, connection_base>`. -/
abbrev SocketMap := Std.ExtTreeMap Int Connection

/-- The containers, the handler, the next map node to be allocated, and the open descriptors among
those that `::socket` and `::accept` returned. -/
structure Memory where
  sockets : Container → SocketMap
  handler : Handler SockPtr
  nextNode : Nat
  descriptors : List Int

/-- A pointer to the element `c` under `key`. -/
def SockPtr.pointer (container : Container) (key : Int) (c : Connection) : SockPtr :=
  { container := container, key := key, node := c.node }

namespace Memory

/-- No socket yet. -/
def empty (invalid : UShort) : Memory where
  sockets _ := ∅
  handler := { sockets := [], socketPtrs := [], invalid := invalid }
  nextNode := 0
  descriptors := []

/-- The element that a pointer points to, if it has not been erased. -/
def deref (m : Memory) (p : SockPtr) : Option Connection :=
  ((m.sockets p.container)[p.key]?).filter fun c => c.node == p.node

/-- A write through a pointer. -/
def modify (m : Memory) (p : SockPtr) (f : Connection → Connection) : Memory :=
  { m with
    sockets := Function.update m.sockets p.container ((m.sockets p.container).modify p.key f) }

/-- `::socket` or `::accept` returned `fd`. -/
def openFd (m : Memory) (fd : Int) : Memory := { m with descriptors := fd :: m.descriptors }

/-- The pointer to the next element of the container, under the descriptor `fd`. -/
def newPtr (m : Memory) (container : Container) (fd : Int) : SockPtr :=
  { container := container, key := fd, node := m.nextNode }

/-- `socket_container::_insert_socket` where the key is free. -/
def addElement (m : Memory) (container : Container) (fd : Int) : Memory where
  sockets := Function.update m.sockets container
    ((m.sockets container).insert fd (Connection.inserted m.nextNode fd))
  handler := m.handler.addSocket fd (m.newPtr container fd)
  nextNode := m.nextNode + 1
  descriptors := m.descriptors

/-- `socket_container::_insert_socket`: nothing happens where the key is taken. -/
def insertSocket (m : Memory) (container : Container) (fd : Int) : Option (Memory × SockPtr) :=
  if (m.sockets container).contains fd then none
  else some (m.addElement container fd, m.newPtr container fd)

/-- What `socket::close` does before the `CLOSED` action, on an open socket with descriptor `fd`:
`delete_socket`, then `socket_base::close`. -/
def closeSocket (m : Memory) (p : SockPtr) (fd : Int) : Memory :=
  { m.modify p fun c => { c with sock := -1 } with
    handler := m.handler.deleteSocket fd
    descriptors := m.descriptors.filter fun d => d != fd }

/-- `this->sockets.erase(socket_key)`. -/
def eraseSocket (m : Memory) (container : Container) (key : Int) : Memory :=
  { m with
    sockets := Function.update m.sockets container ((m.sockets container).erase key) }

/-- What `send` or `send_flush` on the element leaves behind. -/
def sent (m : Memory) (p : SockPtr) (s : Sent SockPtr) : Memory :=
  { m.modify p fun _ => s.connection with handler := s.handler }

/-- `this->sockets.begin()`, if the container is not empty. -/
def begin? (m : Memory) (container : Container) : Option (Int × Connection) :=
  (m.sockets container).toList.head?

/-! ### What a pointer points to -/

theorem deref_eq_some {m : Memory} {p : SockPtr} {c : Connection} :
    m.deref p = some c ↔ (m.sockets p.container)[p.key]? = some c ∧ c.node = p.node := by
  rw [deref, Option.filter_eq_some_iff]
  simp

theorem deref_pointer {m : Memory} {container : Container} {key : Int} {c : Connection}
    (h : (m.sockets container)[key]? = some c) : m.deref (.pointer container key c) = some c :=
  deref_eq_some.mpr ⟨h, rfl⟩

@[simp] theorem deref_openFd (m : Memory) (fd : Int) (p : SockPtr) :
    (m.openFd fd).deref p = m.deref p := rfl

theorem getElem?_modify (m : Memory) (p : SockPtr) (f : Connection → Connection)
    (container : Container) (key : Int) :
    ((m.modify p f).sockets container)[key]? =
      if container = p.container ∧ key = p.key then ((m.sockets container)[key]?).map f
      else (m.sockets container)[key]? := by
  by_cases hc : container = p.container
  · subst hc
    simp only [modify, Function.update_self, Std.ExtTreeMap.getElem?_modify, true_and]
    by_cases hk : key = p.key
    · simp [hk]
    · simp [hk, Ne.symm hk]
  · simp [modify, hc]

theorem getElem?_eraseSocket (m : Memory) (container : Container) (key : Int)
    (container' : Container) (key' : Int) :
    ((m.eraseSocket container key).sockets container')[key']? =
      if container' = container ∧ key' = key then none else (m.sockets container')[key']? := by
  by_cases hc : container' = container
  · subst hc
    simp only [eraseSocket, Function.update_self, Std.ExtTreeMap.getElem?_erase, true_and]
    by_cases hk : key' = key
    · simp [hk]
    · simp [hk, Ne.symm hk]
  · simp [eraseSocket, hc]

theorem getElem?_addElement (m : Memory) (container : Container) (fd : Int)
    (container' : Container) (key' : Int) :
    ((m.addElement container fd).sockets container')[key']? =
      if container' = container ∧ key' = fd then some (Connection.inserted m.nextNode fd)
      else (m.sockets container')[key']? := by
  by_cases hc : container' = container
  · subst hc
    simp only [addElement, Function.update_self, Std.ExtTreeMap.getElem?_insert, true_and]
    by_cases hk : key' = fd
    · simp [hk]
    · simp [hk, Ne.symm hk]
  · simp [addElement, hc]

/-- Pointers to one key of a container that both point to an element are equal. -/
theorem deref_unique {m : Memory} {p q : SockPtr} {c d : Connection} (hp : m.deref p = some c)
    (hq : m.deref q = some d) (hcontainer : q.container = p.container) (hkey : q.key = p.key) :
    q = p := by
  rw [deref_eq_some] at hp hq
  rw [hcontainer, hkey, hp.1] at hq
  obtain ⟨hcd, hnode⟩ := hq
  obtain rfl := Option.some.inj hcd
  cases p
  cases q
  simp_all

/-- A write through a pointer to an element is seen through that pointer only. -/
theorem deref_modify {m : Memory} {p : SockPtr} {c : Connection} (hp : m.deref p = some c)
    {f : Connection → Connection} (hf : (f c).node = c.node) (q : SockPtr) :
    (m.modify p f).deref q = if q = p then some (f c) else m.deref q := by
  obtain ⟨helem, hnode⟩ := deref_eq_some.mp hp
  by_cases hslot : q.container = p.container ∧ q.key = p.key
  · rw [deref, getElem?_modify, if_pos hslot, hslot.1, hslot.2, helem]
    by_cases hq : q = p
    · simp [hq, hf, hnode]
    · have hqnode : c.node ≠ q.node := fun h => hq (deref_unique hp
        (deref_eq_some.mpr ⟨by rw [hslot.1, hslot.2, helem], h⟩) hslot.1 hslot.2)
      have hdead : m.deref q = none := by simp [deref, hslot, helem, hqnode]
      simp [hq, hf, hqnode, hdead]
  · have hq : q ≠ p := fun h => hslot ⟨by rw [h], by rw [h]⟩
    rw [deref, getElem?_modify, if_neg hslot, if_neg hq, deref]

/-- A closed element stays where it is, without its descriptor. -/
theorem deref_closeSocket {m : Memory} {p : SockPtr} {c : Connection} (hp : m.deref p = some c)
    (fd : Int) (q : SockPtr) :
    (m.closeSocket p fd).deref q = if q = p then some { c with sock := -1 } else m.deref q :=
  deref_modify hp (f := fun c => { c with sock := -1 }) rfl q

/-- An erased element is missed by its own pointer only. -/
theorem deref_eraseSocket {m : Memory} {p : SockPtr} {c : Connection} (hp : m.deref p = some c)
    (q : SockPtr) :
    (m.eraseSocket p.container p.key).deref q = if q = p then none else m.deref q := by
  by_cases hslot : q.container = p.container ∧ q.key = p.key
  · rw [deref, getElem?_eraseSocket, if_pos hslot]
    by_cases hq : q = p
    · simp [hq]
    · cases hd : m.deref q with
      | none => simp
      | some d => exact absurd (deref_unique hp hd hslot.1 hslot.2) hq
  · have hq : q ≠ p := fun h => hslot ⟨by rw [h], by rw [h]⟩
    rw [deref, getElem?_eraseSocket, if_neg hslot, if_neg hq, deref]

theorem deref_addElement {m : Memory} {container : Container} {fd : Int}
    (hfree : (m.sockets container).contains fd = false) (q : SockPtr) :
    (m.addElement container fd).deref q =
      if q = m.newPtr container fd then some (Connection.inserted m.nextNode fd)
      else m.deref q := by
  have hnone : (m.sockets container)[fd]? = none :=
    Std.ExtTreeMap.getElem?_eq_none_of_contains_eq_false hfree
  rw [deref, getElem?_addElement]
  by_cases hslot : q.container = container ∧ q.key = fd
  · obtain ⟨hc, hk⟩ := hslot
    have hdead : m.deref q = none := by simp [deref, hc, hk, hnone]
    have hq : q = m.newPtr container fd ↔ q.node = m.nextNode := by
      cases q
      simp_all [newPtr]
    simp only [hc, hk, and_self, if_true, hdead, hq]
    by_cases hn : q.node = m.nextNode
    · simp [hn, Connection.inserted]
    · simp [hn, Connection.inserted, Ne.symm hn]
  · have hq : q ≠ m.newPtr container fd := fun h => hslot ⟨by rw [h]; rfl, by rw [h]; rfl⟩
    rw [if_neg hslot, if_neg hq, deref]

theorem deref_added {m : Memory} {container : Container} {fd : Int}
    {f : Connection → Connection} (hfree : (m.sockets container).contains fd = false)
    (hnode : ∀ c, (f c).node = c.node) (q : SockPtr) :
    (((m.openFd fd).addElement container fd).modify (m.newPtr container fd) f).deref q =
      if q = m.newPtr container fd then some (f (Connection.inserted m.nextNode fd))
      else m.deref q := by
  have hderef : ∀ q, ((m.openFd fd).addElement container fd).deref q =
      if q = m.newPtr container fd then some (Connection.inserted m.nextNode fd)
      else m.deref q := deref_addElement (m := m.openFd fd) hfree
  rw [deref_modify ((hderef _).trans (if_pos rfl)) (hnode _)]
  by_cases hq : q = m.newPtr container fd
  · rw [if_pos hq, if_pos hq]
  · rw [if_neg hq, if_neg hq]
    exact (hderef q).trans (if_neg hq)

theorem isSome_modify {m : Memory} {p q : SockPtr} {c : Connection} {f : Connection → Connection}
    (hp : m.deref p = some c) (hf : (f c).node = c.node) (hq : (m.deref q).isSome) :
    ((m.modify p f).deref q).isSome := by
  rw [deref_modify hp hf]
  split
  · rfl
  · exact hq

theorem isSome_added {m : Memory} {q : SockPtr} {container : Container} {fd : Int}
    {f : Connection → Connection} (hfree : (m.sockets container).contains fd = false)
    (hnode : ∀ c, (f c).node = c.node) (hq : q = m.newPtr container fd ∨ (m.deref q).isSome) :
    ((((m.openFd fd).addElement container fd).modify (m.newPtr container fd) f).deref q).isSome := by
  rw [deref_added hfree hnode]
  split
  · rfl
  · next hne => exact hq.resolve_left hne

theorem begin?_eq_some {m : Memory} {container : Container} {key : Int} {c : Connection}
    (h : m.begin? container = some (key, c)) : (m.sockets container)[key]? = some c :=
  Std.ExtTreeMap.mem_toList_iff_getElem?_eq_some.mp (List.mem_of_head? h)

end Memory

end Unisock.Tcp
