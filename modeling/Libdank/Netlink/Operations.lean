import Libdank.Foundation.LittleEndian
import Libdank.Foundation.Requests
import Libdank.Parse

/-! Routes and neighbors as the kernel reports them, after `modules/netlink/netlink.c`. A pointer
into a datagram is the list of the bytes from there to the end of the buffer. Lengths are
`size_t`, words of 64 bits; the fields of a header are little-endian. -/
namespace Libdank.Netlink
open LittleEndian Requests Parse

abbrev Bytes := List UInt8

section Attributes

def rtaLen (rta : Bytes) : ℕ := peek 2 rta

def rtaType (rta : Bytes) : ℕ := peek 2 (rta.drop 2)

def rtaData (rta : Bytes) : Bytes := rta.drop 4

def rtaAlign (len : ℕ) : ℕ := (len + 3) / 4 * 4

/-- What `parse_rtattr` did: the headers it examined, what it stored in `tb`, and the length that
was left. -/
structure Parsed where
  headers : List Bytes
  stored : List (ℕ × Bytes)
  left : UInt64
deriving DecidableEq

def Parsed.cons (sentinel : ℕ) (rta : Bytes) (p : Parsed) : Parsed where
  headers := rta :: p.headers
  stored := if rtaType rta < sentinel then (rtaType rta, rta) :: p.stored else p.stored
  left := p.left

/-- `tb[type]`, which a later attribute of the type replaces. -/
def Parsed.tb (p : Parsed) (type : ℕ) : Option Bytes := p.stored.reverse.lookup type

/-- `while(RTA_OK(rta,len))`, for at most `fuel` tests. -/
def parseRtattr (sentinel : ℕ) : ℕ → Bytes → UInt64 → Option Parsed
  | 0, _, _ => none
  | fuel + 1, rta, len =>
    if 4 ≤ len then
      if 4 ≤ rtaLen rta ∧ rtaLen rta ≤ len.toNat then
        (parseRtattr sentinel fuel (rta.drop (rtaAlign (rtaLen rta)))
          (len - UInt64.ofNat (rtaAlign (rtaLen rta)))).map (Parsed.cons sentinel rta)
      else some ⟨[rta], [], len⟩
    else some ⟨[], [], len⟩

end Attributes

structure Route where
  dst : UInt32
  src : UInt32
  bits : ℕ
  table : ℕ
  type : ℕ
deriving DecidableEq, Repr

/-- A neighbor, with the bytes that its two pointers point at; `netlen` and `lllen` count them. -/
structure Neighbor where
  netdst : UInt64
  netaddr : Bytes
  lldst : Bytes
deriving DecidableEq, Repr

def Neighbor.netlen (nb : Neighbor) : ℕ := nb.netaddr.length

def Neighbor.lllen (nb : Neighbor) : ℕ := nb.lldst.length

structure Nic where
  idx : UInt32
  routes : List Route
  neighbors : List Neighbor
  srcaddr : UInt32
deriving DecidableEq, Repr

section Routes

structure Rtmsg where
  dstLen : ℕ
  srcLen : ℕ
  table : ℕ
  type : ℕ
deriving DecidableEq, Repr

def rtmsgAt (p : Bytes) : Rtmsg where
  dstLen := peek 1 (p.drop 1)
  srcLen := peek 1 (p.drop 2)
  table := peek 1 (p.drop 4)
  type := peek 1 (p.drop 7)

def sizeofRoute : ℕ := 32

def rtnLocal : ℕ := 2

def octets (bits : ℕ) : ℕ := (bits + 7) / 8

/-- An address of so many bits, copied to a variable of 4 bytes. A copy past its end is only
recorded. -/
def copyAddress (bits : ℕ) : Option Bytes → Request UInt32
  | none => pure 0
  | some data => do
    visit (decide (octets bits ≤ 4))
    pure (ntohl (UInt32.ofNat (peek (min 4 (octets bits)) data)))

/-- The route put in front, and the source address that a NIC without one takes from it. -/
def Nic.addRoute (n : Nic) (rt : Route) : Nic where
  idx := n.idx
  routes := rt :: n.routes
  neighbors := n.neighbors
  srcaddr :=
    if n.srcaddr = 0 then if rt.src = 0 ∧ rt.type = rtnLocal then rt.dst else rt.src else n.srcaddr

def addRoute (r : Rtmsg) (dst src : Option Bytes) (iif : UInt32) :
    List Nic → Request (Bool × List Nic)
  | [] => pure (false, [])
  | n :: nics =>
    if n.idx = iif then do
      let dip ← copyAddress r.dstLen dst
      let sip ← copyAddress r.srcLen src
      if ← allocate sizeofRoute then
        pure (true, n.addRoute ⟨dip, sip, r.dstLen, r.table, r.type⟩ :: nics)
      else pure (false, n :: nics)
    else do
      let (ok, nics) ← addRoute r dst src iif nics
      pure (ok, n :: nics)

def nlmsgLen (nlh : Bytes) : ℕ := peek 4 nlh

def nlmsgType (nlh : Bytes) : ℕ := peek 2 (nlh.drop 4)

def nlmsgFlags (nlh : Bytes) : ℕ := peek 2 (nlh.drop 6)

def nlmsgPid (nlh : Bytes) : ℕ := peek 4 (nlh.drop 12)

def nlmsgData (nlh : Bytes) : Bytes := nlh.drop 16

/-- `NLMSG_ALIGN`, in the 32 bits of `nlmsg_len`. -/
def nlmsgAlign (len : ℕ) : ℕ := (len + 3) % 2 ^ 32 / 4 * 4

def nlmFMulti : UInt32 := 2

def nlmsgDone : ℕ := 3

def rtmNewroute : ℕ := 24

def rtmsgLength : ℕ := 28

def rtaDst : ℕ := 1

def rtaSrc : ℕ := 2

def rtaOif : ℕ := 4

def rtaMax : ℕ := 30

/-- The number of parts unless -1 is returned, the NICs, and the allocator. -/
structure Decoded where
  parts : Option ℕ
  nics : List Nic
  heap : Heap
deriving DecidableEq

/-- The part of the loop that follows the checks of a header: what the attributes come to. -/
def handleRoute (r : Rtmsg) (tb : ℕ → Option Bytes) (nics : List Nic) : Request (Bool × List Nic) :=
  if r.dstLen ≠ 0 ∧ tb rtaDst = none then pure (false, nics)
  else
    match tb rtaOif with
    | none => pure (true, nics)
    | some oif =>
      addRoute r ((tb rtaDst).map rtaData) ((tb rtaSrc).map rtaData)
        (UInt32.ofNat (peek 4 (rtaData oif))) nics

/-- `for( ; NLMSG_OK(nlh,len) ; nlh = NLMSG_NEXT(nlh,len))` -/
def decodeGetrouteMsg (pid : UInt32) : ℕ → ℕ → Bytes → UInt64 → List Nic → Heap → Option Decoded
  | 0, _, _, _, _, _ => none
  | fuel + 1, parts, nlh, len, nics, heap =>
    if 16 ≤ len.toNat ∧ 16 ≤ nlmsgLen nlh ∧ nlmsgLen nlh ≤ len.toNat then
      if UInt32.ofNat (nlmsgFlags nlh) &&& ~~~nlmFMulti ≠ 0 then some ⟨none, nics, heap⟩
      else if nlmsgType nlh = nlmsgDone then some ⟨some 0, nics, heap⟩
      else if nlmsgType nlh ≠ rtmNewroute then some ⟨none, nics, heap⟩
      else if UInt32.ofNat (nlmsgPid nlh) ≠ pid then some ⟨none, nics, heap⟩
      else
        (parseRtattr (rtaMax + 1) fuel (nlh.drop rtmsgLength) (len - UInt64.ofNat rtmsgLength)).bind
          fun parsed =>
            if parsed.left ≠ 0 then some ⟨none, nics, heap⟩
            else
              let ((ok, nics), heap) := handleRoute (rtmsgAt (nlmsgData nlh)) parsed.tb nics heap
              if ok then
                decodeGetrouteMsg pid fuel (parts + 1) (nlh.drop (nlmsgAlign (nlmsgLen nlh)))
                  (len - UInt64.ofNat (nlmsgAlign (nlmsgLen nlh))) nics heap
              else some ⟨none, nics, heap⟩
    else if len = 0 then some ⟨some parts, nics, heap⟩
    else some ⟨none, nics, heap⟩

end Routes

section Neighbors

def sizeofSllAddr : ℕ := 8

/-- What `setup_sockaddr_ll` fills in of a `struct sockaddr_ll` that it has cleared; the family is
`AF_PACKET`. -/
structure SockaddrLl where
  ifindex : UInt32
  halen : ℕ
  addr : Bytes
deriving DecidableEq, Repr

def fillSockaddrLl (idx : UInt32) (nb : Neighbor) : SockaddrLl :=
  ⟨idx, nb.lllen, nb.lldst ++ List.replicate (sizeofSllAddr - nb.lllen) 0⟩

/-- One round of the inner loop, `none` where it goes on. The bytes compared are those of the
pointer itself. -/
def tryNeighbor (sAddr : UInt32) (idx : UInt32) (nb : Neighbor) : Option (Option SockaddrLl) :=
  if nb.netlen ≠ 4 then none
  else if (wire 8 nb.netdst.toNat).take nb.netlen ≠ (wire 4 sAddr.toNat).take nb.netlen then none
  else if nb.lllen = 0 ∨ sizeofSllAddr < nb.lllen then some none
  else some (some (fillSockaddrLl idx nb))

/-- `none` for -1. -/
def setupSockaddrLl (nics : List Nic) (sAddr : UInt32) : Option SockaddrLl :=
  (nics.findSome? fun n => n.neighbors.findSome? fun nb => tryNeighbor sAddr n.idx nb).join

end Neighbors

theorem findSome_flatMap {α β γ : Type} (f : α → List β) (g : β → Option γ) (xs : List α) :
    (xs.flatMap f).findSome? g = xs.findSome? fun x => (f x).findSome? g := by
  induction xs with
  | nil => rfl
  | cons x xs ih =>
    rw [List.flatMap_cons, List.findSome?_append, List.findSome?_cons, ih]
    cases (f x).findSome? g <;> rfl

end Libdank.Netlink
