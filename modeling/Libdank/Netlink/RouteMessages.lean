import Libdank.Netlink.Messages

/-! The messages of `decode_getroute_msg`. -/
namespace Libdank.Netlink
open LittleEndian Requests

/-- An RTM_NEWROUTE message, whose attributes are long enough for what is read of them. -/
structure Message where
  multi : Bool
  seq : ℕ
  pid : UInt32
  rtmsg : Bytes
  attributes : List Rtattr
  rtmsg_length : rtmsg.length = 12
  short : 28 + (attributes.flatMap Rtattr.bytes).length < 2 ^ 16
  dst_long : ∀ a ∈ attributes, a.type = rtaDst → octets (rtmsgAt rtmsg).dstLen ≤ a.payload.length
  src_long : ∀ a ∈ attributes, a.type = rtaSrc → octets (rtmsgAt rtmsg).srcLen ≤ a.payload.length
  oif_long : ∀ a ∈ attributes, a.type = rtaOif → 4 ≤ a.payload.length

def Message.header (m : Message) : Nlmsghdr where
  len := 28 + (m.attributes.flatMap Rtattr.bytes).length
  type := rtmNewroute
  multi := m.multi
  seq := m.seq
  pid := m.pid
  least := by omega
  short := m.short
  type_lt := by decide

def Message.bytes (m : Message) : Bytes :=
  m.header.bytes ++ (m.rtmsg ++ m.attributes.flatMap Rtattr.bytes)

/-- The payload of the message's own attribute of a type, the last one if there are several. -/
def Message.own (m : Message) (type : ℕ) : Option Bytes :=
  (m.attributes.reverse.find? fun a => a.type = type).map Rtattr.payload

def Message.handle (pid : UInt32) (nics : List Nic) (m : Message) : Request (Bool × List Nic) :=
  let r := rtmsgAt m.rtmsg
  if m.pid ≠ pid then pure (false, nics)
  else if r.dstLen ≠ 0 ∧ m.own rtaDst = none then pure (false, nics)
  else
    match m.own rtaOif with
    | none => pure (true, nics)
    | some oif => addRoute r (m.own rtaDst) (m.own rtaSrc) (UInt32.ofNat (peek 4 oif)) nics

/-- What a pointer in `tb` has to do with the payload of an attribute. -/
def Shows (p payload : Bytes) : Prop := payload <+: rtaData p

theorem rtaData_bytes (a : Rtattr) {p : Bytes} (start : a.bytes <+: p) : Shows p a.payload := by
  obtain ⟨rest, rfl⟩ := start
  have data : rtaData (a.bytes ++ rest) = a.payload ++ (a.padding ++ rest) := by
    rw [rtaData, Rtattr.bytes, ← List.drop_drop (i := 2) (j := 2), List.append_assoc, drop_wire_append,
      List.append_assoc, drop_wire_append, List.append_assoc]
  rw [Shows, data]
  exact List.prefix_append _ _

theorem copyAddress_shown {bits : ℕ} {shown : Option Bytes} {payload : Option Bytes}
    (rel : Option.Rel Shows shown payload) (long : ∀ data ∈ payload, octets bits ≤ data.length) :
    copyAddress bits (shown.map rtaData) = copyAddress bits payload := by
  cases rel with
  | none => rfl
  | some shows_ =>
    obtain ⟨rest, data⟩ := shows_
    rw [Option.map_some, copyAddress, copyAddress, ← data,
      peek_append (le_trans (Nat.min_le_right _ _) (long _ rfl))]

theorem addRoute_congr {r : Rtmsg} {dst dst' src src' : Option Bytes}
    (dest : copyAddress r.dstLen dst = copyAddress r.dstLen dst')
    (source : copyAddress r.srcLen src = copyAddress r.srcLen src') (iif : UInt32) (nics : List Nic) :
    addRoute r dst src iif nics = addRoute r dst' src' iif nics := by
  induction nics with
  | nil => rfl
  | cons n nics ih => rw [addRoute, addRoute, dest, source, ih]

theorem handleRoute_shown {r : Rtmsg} {tb own : ℕ → Option Bytes}
    (found : ∀ type, 0 < type → type < rtaMax + 1 → Option.Rel Shows (tb type) (own type))
    (dst_long : ∀ data ∈ own rtaDst, octets r.dstLen ≤ data.length)
    (src_long : ∀ data ∈ own rtaSrc, octets r.srcLen ≤ data.length)
    (oif_long : ∀ data ∈ own rtaOif, 4 ≤ data.length) (nics : List Nic) :
    handleRoute r tb nics =
      if r.dstLen ≠ 0 ∧ own rtaDst = none then pure (false, nics)
      else
        match own rtaOif with
        | none => pure (true, nics)
        | some oif => addRoute r (own rtaDst) (own rtaSrc) (UInt32.ofNat (peek 4 oif)) nics := by
  have dst := found rtaDst (by decide) (by decide)
  have dest := copyAddress_shown dst dst_long
  have source := copyAddress_shown (found rtaSrc (by decide) (by decide)) src_long
  have oif := found rtaOif (by decide) (by decide)
  simp only [handleRoute, rel_eq_none dst]
  revert oif oif_long
  generalize tb rtaOif = shown, own rtaOif = payload
  intro oif_long oif
  cases oif with
  | none => rfl
  | some shows_ =>
    obtain ⟨rest, data⟩ := shows_
    simp only [addRoute_congr dest source, ← data, peek_append (oif_long _ rfl)]

theorem rtmsgAt_append {p : Bytes} (long : 8 ≤ p.length) (rest : Bytes) :
    rtmsgAt (p ++ rest) = rtmsgAt p := by
  have byte : ∀ i < 8, peek 1 ((p ++ rest).drop i) = peek 1 (p.drop i) := by
    intro i inside
    rw [List.drop_append_of_le_length (by omega), peek_append (by rw [List.length_drop]; omega)]
  simp only [rtmsgAt, byte 1 (by decide), byte 2 (by decide), byte 4 (by decide), byte 7 (by decide)]

section Loop
open Dumps

theorem shows_extended {sentinel : ℕ} {tb : ℕ → Option Bytes} {own : ℕ → Option Rtattr}
    (extends_ : Extends sentinel tb own) (type : ℕ) (pos : 0 < type) (known : type < sentinel) :
    Option.Rel Shows (tb type) ((own type).map Rtattr.payload) := by
  have rel := extends_ type pos known
  revert rel
  generalize tb type = p, own type = a
  rintro (start | _)
  · exact .some (rtaData_bytes _ start)
  · exact .none

theorem extends_alone (sentinel : ℕ) (own : ℕ → Option Rtattr) : Extends sentinel (alone own) own := by
  intro type _ _
  rw [alone]
  cases own type with
  | none => exact .none
  | some a => exact .some List.prefix_rfl

def routeNics : Dump (List Nic) where
  type := rtmNewroute
  length := rtmsgLength
  sentinel := rtaMax + 1
  handle r tb := handleRoute (rtmsgAt r) tb
  Fits r own := (∀ a ∈ own rtaDst, octets (rtmsgAt r).dstLen ≤ a.payload.length) ∧
    (∀ a ∈ own rtaSrc, octets (rtmsgAt r).srcLen ≤ a.payload.length) ∧ ∀ a ∈ own rtaOif, 4 ≤ a.payload.length
  type_lt := by decide
  not_done := by decide
  least := by decide
  aligned := by decide
  reads := by
    intro r own long ⟨dst_long, src_long, oif_long⟩ tb extends_ rest nics
    rw [rtmsgAt_append (by simp only [rtmsgLength] at long; omega)]
    have shown {tb : ℕ → Option Bytes} (extends_ : Extends (rtaMax + 1) tb own) :=
      @handleRoute_shown (rtmsgAt r) tb _ (shows_extended extends_) (Option.forall_mem_map.mpr dst_long)
        (Option.forall_mem_map.mpr src_long) (Option.forall_mem_map.mpr oif_long) nics
    exact (shown extends_).trans (shown (extends_alone _ own)).symm

/-- `decode_getroute_msg` is the loop for routes. -/
theorem decodeGetrouteMsg_eq (pid : UInt32) (fuel parts : ℕ) (nlh : Bytes) (len : UInt64) (nics : List Nic)
    (heap : Heap) : decodeGetrouteMsg pid fuel parts nlh len nics heap =
      (decodeMsg routeNics pid fuel parts nlh len nics heap).map fun d => ⟨d.1, d.2.1, d.2.2⟩ := by
  induction fuel generalizing parts nlh len nics heap with
  | zero => rfl
  | succ fuel ih =>
    have fields : routeNics.type = rtmNewroute ∧ routeNics.length = rtmsgLength ∧
        routeNics.sentinel = rtaMax + 1 := ⟨rfl, rfl, rfl⟩
    rw [decodeGetrouteMsg, decodeMsg, fields.1, fields.2.1, fields.2.2]
    split_ifs with whole flagged last other strange
    · rfl
    · rfl
    · rfl
    · rfl
    · rw [Option.map_bind]
      refine congrArg _ (funext fun parsed => ?_)
      rw [Function.comp_apply]
      split_ifs with left
      · rfl
      · have handled : routeNics.handle (nlmsgData nlh) parsed.tb nics heap =
            handleRoute (rtmsgAt (nlmsgData nlh)) parsed.tb nics heap := rfl
        rw [handled]
        generalize handleRoute (rtmsgAt (nlmsgData nlh)) parsed.tb nics heap = result
        obtain ⟨⟨ok, nics'⟩, heap'⟩ := result
        cases ok with
        | true => exact ih _ _ _ _ _
        | false => rfl
    · rfl
    · rfl

theorem Message.own_long (m : Message) {type length : ℕ}
    (long : ∀ a ∈ m.attributes, a.type = type → length ≤ a.payload.length) :
    ∀ a ∈ m.attributes.reverse.find? fun a => a.type = type, length ≤ a.payload.length :=
  fun a found => long a (List.mem_reverse.mp (List.mem_of_find?_eq_some found)) (by simpa using List.find?_some found)

def Message.part (m : Message) : Dumps.Part routeNics where
  multi := m.multi
  seq := m.seq
  pid := m.pid
  fixed := m.rtmsg
  attributes := m.attributes
  whole := by rw [m.rtmsg_length]; rfl
  short := m.short
  fits := ⟨m.own_long m.dst_long, m.own_long m.src_long, m.own_long m.oif_long⟩

theorem Message.meaning_part (pid : UInt32) (m : Message) (nics : List Nic) :
    m.part.meaning pid nics = m.handle pid nics := by
  have shown := @handleRoute_shown (rtmsgAt m.rtmsg) _ _ (shows_extended (extends_alone (rtaMax + 1) m.part.own))
    (Option.forall_mem_map.mpr (m.own_long m.dst_long)) (Option.forall_mem_map.mpr (m.own_long m.src_long))
    (Option.forall_mem_map.mpr (m.own_long m.oif_long)) nics
  rw [Dumps.Part.meaning, Message.handle]
  by_cases other : m.pid ≠ pid
  · rw [if_pos other]
    exact if_pos other
  · rw [if_neg other]
    exact (if_neg other).trans shown

end Loop

structure Datagram where
  messages : List Message
  done : Option Done

def Datagram.chunks (d : Datagram) : List Bytes :=
  d.messages.map Message.bytes ++ d.done.toList.map Done.bytes

def Datagram.bytes (d : Datagram) : Bytes := d.chunks.flatten

def Datagram.run (pid : UInt32) (nics : List Nic) (d : Datagram) : Request (Bool × List Nic) :=
  untilFailure (Message.handle pid) nics d.messages

def Datagram.parts (d : Datagram) (parts : ℕ) : ℕ := if d.done.isSome then 0 else parts

theorem Datagram.bytes_parts (d : Datagram) :
    d.bytes = Dumps.Datagram.bytes ⟨d.messages.map Message.part, d.done⟩ := by
  rw [Datagram.bytes, Datagram.chunks, Dumps.Datagram.bytes, Dumps.Datagram.chunks, List.map_map]
  rfl

theorem Datagram.run_parts (pid : UInt32) (nics : List Nic) (d : Datagram) :
    untilFailure (Dumps.Part.meaning pid) nics (d.messages.map Message.part) = d.run pid nics := by
  funext heap
  rw [untilFailure_map, Datagram.run]
  simp only [Message.meaning_part]

/-- Each message of a datagram does what it says itself, whatever follows it. -/
theorem decodeGetrouteMsg_own (pid : UInt32) (d : Datagram) (len : UInt64)
    (length : len.toNat = d.bytes.length) (nics : List Nic) (heap : Heap) :
    ∃ fuel, decodeGetrouteMsg pid fuel 0 d.bytes len nics heap =
      some ⟨if (d.run pid nics heap).1.1 then some (d.parts d.messages.length) else none,
        (d.run pid nics heap).1.2, (d.run pid nics heap).2⟩ := by
  refine ⟨Dumps.tests (d.messages.map Message.part), ?_⟩
  have decoded := Dumps.decode_datagram pid d.done (d.messages.map Message.part) le_rfl 0 (d.bytes_parts ▸ length)
    nics heap
  rw [decodeGetrouteMsg_eq, d.bytes_parts, decoded, d.run_parts, Nat.zero_add, List.length_map]
  rfl

def oifAttribute : Rtattr := ⟨rtaOif, [2, 0, 0, 0], [], by decide, by decide, by decide⟩

def dstAttribute : Rtattr := ⟨rtaDst, [10, 0, 0, 0], [], by decide, by decide, by decide⟩

def defaultRoute : Message where
  multi := true
  seq := 1
  pid := 7
  rtmsg := [2, 0, 0, 0, 254, 3, 0, 1, 0, 0, 0, 0]
  attributes := [oifAttribute]
  rtmsg_length := rfl
  short := by decide
  dst_long := by decide
  src_long := by decide
  oif_long := by decide

def blockRoute : Message where
  multi := true
  seq := 1
  pid := 7
  rtmsg := [2, 8, 0, 0, 254, 3, 0, 1, 0, 0, 0, 0]
  attributes := [dstAttribute, oifAttribute]
  rtmsg_length := rfl
  short := by decide
  dst_long := by decide
  src_long := by decide
  oif_long := by decide

/-- The default route keeps the destination 0, though a destination follows it. -/
theorem decodeGetrouteMsg_own_two : ∃ fuel,
    decodeGetrouteMsg 7 fuel 0 (Datagram.bytes ⟨[defaultRoute, blockRoute], none⟩) 80
        [⟨2, [], [], 0⟩] ⟨[], false⟩ =
      some ⟨some 2, [⟨2, [⟨0x0a000000, 0, 8, 254, 1⟩, ⟨0, 0, 0, 254, 1⟩], [], 0⟩], ⟨[], false⟩⟩ :=
  decodeGetrouteMsg_own 7 ⟨[defaultRoute, blockRoute], none⟩ 80 (by decide) [⟨2, [], [], 0⟩] ⟨[], false⟩

end Libdank.Netlink
