import Libdank.Netlink.RouteMessages

/-! The dumps of links, neighbors and routes that `init_netlink_state` asks the kernel for, and the
table that they make, after `modules/netlink/netlink.c`. -/
namespace Libdank.Netlink.Dumps
open LittleEndian Requests

section Receiving
variable {σ : Type} (k : Dump σ)

def bufsiz : ℕ := 8192

def afNetlink : ℕ := 16

def msgTrunc : UInt32 := 0x20

def msgCmsgCompat : UInt32 := 0x80000000

/-- A datagram that arrives: its sender, what there is in `msg_flags` besides, and its octets. -/
structure Arrival where
  nlPid : UInt32
  nlFamily : ℕ
  msgFlags : UInt32
  bytes : Bytes
deriving DecidableEq, Repr

/-- What does not fit into the buffer is lost, and `Recvmsg` says so. -/
def Arrival.flags (a : Arrival) (buflen : ℕ) : UInt32 :=
  if buflen < a.bytes.length then a.msgFlags ||| msgTrunc else a.msgFlags

/-- `recv_get…_msg`: whether it returns 0, the state, and what has not been received yet. It gives
nothing where it waits for ever or leaves its buffer. -/
def recvMsg (pid : UInt32) (buflen : ℕ) : List (Option Arrival) → σ → Heap →
    Option (Bool × σ × Heap × List (Option Arrival))
  | [], _, _ => none
  | none :: rest, s, heap => some (false, s, heap, rest)
  | some a :: rest, s, heap =>
    let buf := a.bytes.take buflen
    if buf = [] then some (false, s, heap, rest)
    else if a.nlPid ≠ 0 ∨ a.nlFamily ≠ afNetlink then some (false, s, heap, rest)
    else if a.flags buflen &&& ~~~msgCmsgCompat ≠ 0 then some (false, s, heap, rest)
    else
      match decodeMsg k pid (buf.length + 2) 0 buf (UInt64.ofNat buf.length) s heap with
      | none => none
      | some (none, s, heap) => some (false, s, heap, rest)
      | some (some 0, s, heap) => some (true, s, heap, rest)
      | some (some (_ + 1), s, heap) => recvMsg pid buflen rest s heap

end Receiving

section Table

/-- A NIC with what only its link tells. -/
structure Card where
  nic : Nic
  name : Bytes
  linktype : ℕ
  mtu : UInt32
  txqlen : ℕ
  drvinfo : Option Bytes
deriving DecidableEq, Repr

/-- What the rest of the system says while the table is what it is: `get_idx_txqlen`,
`check_ethtool_support`, what is left of old in a new NIC, and where an address is copied to. -/
structure Host where
  txqlen : List Card → Bytes → Option ℕ
  drvinfo : List Card → Bytes → Option Bytes
  srcaddr : List Card → UInt32
  netdst : List Card → UInt64

variable (host : Host)

def sizeofNic : ℕ := 80

def sizeofNeighbor : ℕ := 56

def arphrdEther : ℕ := 1

def addNic (linktype : ℕ) (idx : UInt32) (name : Bytes) (mtu : UInt32) (cards : List Card) :
    Request (Bool × List Card) :=
  match host.txqlen cards name with
  | none => pure (false, cards)
  | some txqlen =>
    let drvstr := if linktype = arphrdEther then host.drvinfo cards name else none
    if cards.any fun c => c.nic.idx = idx then pure (false, cards)
    else do
      if ← allocate sizeofNic then
        if ← allocate (name.length + 1) then
          pure (true, ⟨⟨idx, [], [], host.srcaddr cards⟩, name, linktype, mtu, txqlen, drvstr⟩ :: cards)
        else pure (false, cards)
      else pure (false, cards)

def copyAddr (addr : Bytes) : Request Bool := if addr = [] then pure true else allocate addr.length

/-- Without its link address, a neighbor is freed before its `netdst` has been set. -/
def createNeigh (place : UInt64) (lldst dst : Bytes) : Request (Option Neighbor) := do
  if ← allocate sizeofNeighbor then
    if ← copyAddr lldst then
      if ← copyAddr dst then pure (some ⟨if dst = [] then 0 else place, dst, lldst⟩)
      else pure none
    else
      visit false
      pure none
  else pure none

def Card.addNeighbor (c : Card) (nb : Neighbor) : Card :=
  { c with nic := { c.nic with neighbors := nb :: c.nic.neighbors } }

def addNeigh (place : UInt64) (idx : UInt32) (lldst dst : Bytes) : List Card → Request (Bool × List Card)
  | [] => pure (false, [])
  | c :: cards =>
    if c.nic.idx = idx then do
      match ← createNeigh place lldst dst with
      | none => pure (false, c :: cards)
      | some nb => pure (true, c.addNeighbor nb :: cards)
    else do
      let (ok, cards) ← addNeigh place idx lldst dst cards
      pure (ok, c :: cards)

def withNics (cards : List Card) (nics : List Nic) : List Card :=
  List.zipWith (fun c n => { c with nic := n }) cards nics

def onNics (f : List Nic → Request (Bool × List Nic)) (cards : List Card) : Request (Bool × List Card) := do
  let (ok, nics) ← f (cards.map Card.nic)
  pure (ok, withNics cards nics)

def iflaIfname : ℕ := 3

def iflaMtu : ℕ := 4

def ndaDst : ℕ := 1

def ndaLladdr : ℕ := 2

def iflaMax : ℕ := 62

def cString (p : Bytes) : Bytes := p.takeWhile (· ≠ 0)

def payloadAt (rta : Bytes) : Bytes := (rtaData rta).take (rtaLen rta - 4)

/-- What follows the checks in `decode_getlink_msg`; `i` is a `struct ifinfomsg`. -/
def handleLink (i : Bytes) (tb : ℕ → Option Bytes) (cards : List Card) : Request (Bool × List Card) :=
  match tb iflaIfname, tb iflaMtu with
  | some name, some mtu =>
    addNic host (peek 2 (i.drop 2)) (UInt32.ofNat (peek 4 (i.drop 4))) (cString (rtaData name))
      (UInt32.ofNat (peek 4 (rtaData mtu))) cards
  | _, _ => pure (false, cards)

/-- What follows the checks in `decode_getneigh_msg`; `n` is a `struct ndmsg`. -/
def handleNeigh (n : Bytes) (tb : ℕ → Option Bytes) (cards : List Card) : Request (Bool × List Card) :=
  match tb ndaDst with
  | none => pure (false, cards)
  | some dst =>
    addNeigh (host.netdst cards) (UInt32.ofNat (peek 4 (n.drop 4))) ((tb ndaLladdr).elim [] payloadAt)
      (payloadAt dst) cards

end Table

section Reading

theorem rtaData_alone (a : Rtattr) : rtaData a.bytes = a.payload ++ a.padding := by
  have data : a.bytes = (wire 2 (4 + a.payload.length) ++ wire 2 a.type) ++ (a.payload ++ a.padding) := by
    rw [Rtattr.bytes, List.append_assoc]
  rw [rtaData, data, List.drop_left' (by simp)]

theorem rtaData_extended {a : Rtattr} {p : Bytes} (start : a.bytes <+: p) : rtaData a.bytes <+: rtaData p := by
  obtain ⟨rest, rfl⟩ := start
  rw [rtaData, rtaData, List.drop_append_of_le_length a.chunk.header]
  exact List.prefix_append _ _

theorem length_rtaData (a : Rtattr) : a.payload.length ≤ (rtaData a.bytes).length := by
  rw [rtaData_alone, List.length_append]
  exact Nat.le_add_right _ _

theorem peek_rtaData {a : Rtattr} {p : Bytes} (start : a.bytes <+: p) {width : ℕ}
    (long : width ≤ a.payload.length) : peek width (rtaData p) = peek width (rtaData a.bytes) := by
  obtain ⟨rest, data⟩ := rtaData_extended start
  rw [← data, peek_append (long.trans (length_rtaData a))]

theorem cString_extended {a : Rtattr} {p : Bytes} (start : a.bytes <+: p) (ends : 0 ∈ a.payload) :
    cString (rtaData p) = cString (rtaData a.bytes) := by
  obtain ⟨name, after, payload, first⟩ := List.eq_append_cons_of_mem ends
  have before : ∀ c ∈ name, decide (c ≠ 0) = true := fun c mem => decide_eq_true fun zero => first (zero ▸ mem)
  have stops (rest : Bytes) : cString (name ++ 0 :: rest) = name := by
    rw [cString, List.takeWhile_append_of_pos before, List.takeWhile_cons_of_neg (by simp), List.append_nil]
  have whole : rtaData a.bytes = name ++ 0 :: (after ++ a.padding) := by
    rw [rtaData_alone, payload, List.append_assoc, List.cons_append]
  obtain ⟨rest, data⟩ := rtaData_extended start
  rw [← data, whole, stops, List.append_assoc, List.cons_append, stops]

theorem payloadAt_extended {a : Rtattr} {p : Bytes} (start : a.bytes <+: p) :
    payloadAt p = payloadAt a.bytes := by
  have length : rtaLen a.bytes = 4 + a.payload.length := peek_wire_append a.short _
  obtain ⟨rest, data⟩ := rtaData_extended start
  have same : rtaLen p = rtaLen a.bytes := by
    obtain ⟨tail, rfl⟩ := start
    exact rtaLen_append a.chunk tail
  rw [payloadAt, same, ← data, List.take_append_of_le_length, payloadAt]
  have := length_rtaData a
  omega

end Reading

section Kinds
variable (host : Host)

def linkDump : Dump (List Card) where
  type := 16
  length := 32
  sentinel := iflaMax + 1
  handle := handleLink host
  Fits _ own := (∀ a ∈ own iflaIfname, 0 ∈ a.payload) ∧ ∀ a ∈ own iflaMtu, 4 ≤ a.payload.length
  type_lt := by decide
  not_done := by decide
  least := by decide
  aligned := by decide
  reads := by
    intro i own long ⟨named, wide⟩ tb extends_ rest cards
    have field (j : ℕ) (inside : j + 4 ≤ 16) : peek 4 ((i ++ rest).drop j) = peek 4 (i.drop j) ∧
        peek 2 ((i ++ rest).drop j) = peek 2 (i.drop j) := by
      rw [List.drop_append_of_le_length (by omega)]
      constructor <;> exact peek_append (by rw [List.length_drop]; omega) rest
    have name := extends_ iflaIfname (by decide) (by decide)
    have mtu := extends_ iflaMtu (by decide) (by decide)
    simp only [handleLink, alone, (field 2 (by decide)).2, (field 4 (by decide)).1]
    revert named wide name mtu
    generalize tb iflaIfname = p, own iflaIfname = a, tb iflaMtu = q, own iflaMtu = b
    intro named wide name mtu
    cases name with
    | none => rfl
    | some start =>
      cases mtu with
      | none => rfl
      | some start' =>
        simp only [Option.map_some, cString_extended start (named _ rfl), peek_rtaData start' (wide _ rfl)]

def neighDump : Dump (List Card) where
  type := 28
  length := 28
  sentinel := iflaMax + 1
  handle := handleNeigh host
  Fits _ _ := True
  type_lt := by decide
  not_done := by decide
  least := by decide
  aligned := by decide
  reads := by
    intro n own long _ tb extends_ rest cards
    have field : peek 4 ((n ++ rest).drop 4) = peek 4 (n.drop 4) := by
      rw [List.drop_append_of_le_length (by omega)]
      exact peek_append (by rw [List.length_drop]; omega) rest
    have dst := extends_ ndaDst (by decide) (by decide)
    have lladdr := extends_ ndaLladdr (by decide) (by decide)
    simp only [handleNeigh, alone, field]
    revert dst lladdr
    generalize tb ndaDst = p, own ndaDst = a, tb ndaLladdr = q, own ndaLladdr = b
    intro dst lladdr
    cases dst with
    | none => rfl
    | some start =>
      cases lladdr with
      | none => simp only [Option.map_some, payloadAt_extended start]; rfl
      | some start' =>
        simp only [Option.map_some, Option.elim_some, payloadAt_extended start, payloadAt_extended start']

def routeDump : Dump (List Card) where
  type := routeNics.type
  length := routeNics.length
  sentinel := routeNics.sentinel
  handle r tb := onNics (routeNics.handle r tb)
  Fits := routeNics.Fits
  type_lt := routeNics.type_lt
  not_done := routeNics.not_done
  least := routeNics.least
  aligned := routeNics.aligned
  reads r own long fits tb extends_ rest cards :=
    congrFun (congrArg onNics (funext fun nics => routeNics.reads r own long fits tb extends_ rest nics)) cards

theorem length_addRoute (r : Rtmsg) (dst src : Option Bytes) (iif : UInt32) (nics : List Nic) (heap : Heap) :
    (addRoute r dst src iif nics heap).1.2.length = nics.length := by
  induction nics generalizing heap with
  | nil => rfl
  | cons n nics ih =>
    rw [addRoute]
    split_ifs with here
    · simp only [bind_apply]
      split <;> rfl
    · exact congrArg Nat.succ (ih heap)

theorem length_handleRoute (r : Rtmsg) (tb : ℕ → Option Bytes) (nics : List Nic) (heap : Heap) :
    (handleRoute r tb nics heap).1.2.length = nics.length := by
  rw [handleRoute]
  split_ifs
  · rfl
  · cases tb rtaOif with
    | none => rfl
    | some oif => exact length_addRoute _ _ _ _ _ _

theorem nic_withNics {cards : List Card} {nics : List Nic} (same : nics.length = cards.length) :
    (withNics cards nics).map Card.nic = nics := by
  induction cards generalizing nics with
  | nil => rw [List.length_eq_zero_iff.mp same]; rfl
  | cons c cards ih =>
    obtain ⟨n, nics, rfl⟩ := List.exists_cons_of_length_eq_add_one same
    exact congrArg (n :: ·) (ih (Nat.succ.inj same))

theorem withNics_withNics {cards : List Card} {nics : List Nic} (same : nics.length = cards.length)
    (nics' : List Nic) : withNics (withNics cards nics) nics' = withNics cards nics' := by
  induction cards generalizing nics nics' with
  | nil => rw [List.length_eq_zero_iff.mp same]; rfl
  | cons c cards ih =>
    obtain ⟨n, nics, rfl⟩ := List.exists_cons_of_length_eq_add_one same
    cases nics' with
    | nil => rfl
    | cons n' nics' => exact congrArg (_ :: ·) (ih (Nat.succ.inj same) nics')

theorem withNics_self (cards : List Card) : withNics cards (cards.map Card.nic) = cards := by
  induction cards with
  | nil => rfl
  | cons c cards ih => exact congrArg (c :: ·) ih

theorem decodeMsg_onNics (pid : UInt32) (fuel parts : ℕ) (nlh : Bytes) (len : UInt64) (cards : List Card)
    (heap : Heap) : decodeMsg routeDump pid fuel parts nlh len cards heap =
      (decodeMsg routeNics pid fuel parts nlh len (cards.map Card.nic) heap).map fun d =>
        (d.1, withNics cards d.2.1, d.2.2) := by
  induction fuel generalizing parts nlh len cards heap with
  | zero => rfl
  | succ fuel ih =>
    have stays (r : Option ℕ) (heap : Heap) : some (r, cards, heap) =
        (some (r, cards.map Card.nic, heap)).map fun d => (d.1, withNics cards d.2.1, d.2.2) := by
      rw [Option.map_some, withNics_self]
    have fields : routeDump.type = routeNics.type ∧ routeDump.length = routeNics.length ∧
        routeDump.sentinel = routeNics.sentinel := ⟨rfl, rfl, rfl⟩
    rw [decodeMsg, decodeMsg, fields.1, fields.2.1, fields.2.2]
    split_ifs with whole flagged last other strange
    · exact stays _ _
    · exact stays _ _
    · exact stays _ _
    · exact stays _ _
    · rw [Option.map_bind]
      refine congrArg _ (funext fun parsed => ?_)
      rw [Function.comp_apply]
      split_ifs with left
      · exact stays _ _
      · have length := length_handleRoute (rtmsgAt (nlmsgData nlh)) parsed.tb (cards.map Card.nic) heap
        have handled : routeDump.handle (nlmsgData nlh) parsed.tb cards heap =
            (((routeNics.handle (nlmsgData nlh) parsed.tb (cards.map Card.nic) heap).1.1,
              withNics cards (routeNics.handle (nlmsgData nlh) parsed.tb (cards.map Card.nic) heap).1.2),
              (routeNics.handle (nlmsgData nlh) parsed.tb (cards.map Card.nic) heap).2) := rfl
        change (routeNics.handle (nlmsgData nlh) parsed.tb (cards.map Card.nic) heap).1.2.length = _ at length
        rw [handled]
        generalize routeNics.handle (nlmsgData nlh) parsed.tb (cards.map Card.nic) heap = result at length
        obtain ⟨⟨ok, nics⟩, heap'⟩ := result
        rw [List.length_map] at length
        cases ok with
        | false => rfl
        | true =>
          simp only [if_true]
          rw [ih, nic_withNics length]
          exact congrArg (Option.map · _) (funext fun d => by rw [withNics_withNics length])
    · exact stays _ _
    · exact stays _ _

/-- The loop for routes is that of `decode_getroute_msg`. -/
theorem decodeMsg_route (pid : UInt32) (fuel parts : ℕ) (nlh : Bytes) (len : UInt64) (cards : List Card)
    (heap : Heap) : decodeMsg routeDump pid fuel parts nlh len cards heap =
      (decodeGetrouteMsg pid fuel parts nlh len (cards.map Card.nic) heap).map fun d =>
        (d.parts, withNics cards d.nics, d.heap) := by
  rw [decodeMsg_onNics, decodeGetrouteMsg_eq, Option.map_map]
  rfl

end Kinds

section Answers
variable {σ : Type} {k : Dump σ}

/-- The answer to one request: datagrams of messages, the last of which ends with NLMSG_DONE. -/
structure Answer (k : Dump σ) where
  before : List (Datagram k)
  last : Datagram k
  goes_on : ∀ d ∈ before, d.done = none ∧ d.messages ≠ []
  ends : last.done.isSome

/-- What the messages of a datagram do, each by itself. One that is too long for the buffer is refused. -/
def Datagram.meanings (pid : UInt32) (d : Datagram k) : List (σ → Request (Bool × σ)) :=
  if d.bytes.length ≤ bufsiz then d.messages.map fun m s => m.meaning pid s else [fun s => pure (false, s)]

def Answer.meanings (pid : UInt32) (a : Answer k) : List (σ → Request (Bool × σ)) :=
  a.before.flatMap (Datagram.meanings pid) ++ a.last.meanings pid

def inTurn (s : σ) (meanings : List (σ → Request (Bool × σ))) : Request (Bool × σ) :=
  untilFailure (fun s f => f s) s meanings

theorem inTurn_append (s : σ) (first rest : List (σ → Request (Bool × σ))) (heap : Heap) :
    inTurn s (first ++ rest) heap =
      if (inTurn s first heap).1.1 = true then inTurn (inTurn s first heap).1.2 rest (inTurn s first heap).2
      else inTurn s first heap :=
  untilFailure_append _ s first rest heap

def Datagram.received (d : Datagram k) : Option Arrival := some ⟨0, afNetlink, 0, d.bytes⟩

def Answer.received (a : Answer k) : List (Option Arrival) :=
  a.before.map Datagram.received ++ [a.last.received]

theorem chunk_pos {c : Bytes} (chunk : Chunk c) (rest : Bytes) : c ++ rest ≠ [] := by
  intro none_
  have header := chunk.header
  rw [(List.append_eq_nil_iff.mp none_).1] at header
  exact absurd header (by decide)

theorem bytes_ne_nil {d : Datagram k} (some_ : d.messages ≠ [] ∨ d.done.isSome) : d.bytes ≠ [] := by
  obtain ⟨ms, done⟩ := d
  cases ms with
  | cons m ms => exact chunk_pos m.chunk _
  | nil =>
    obtain ⟨f, rfl⟩ := Option.isSome_iff_exists.mp (some_.resolve_left fun none_ => none_ rfl)
    exact chunk_pos f.chunk []

theorem recv_datagram (pid : UInt32) {d : Datagram k} (some_ : d.messages ≠ [] ∨ d.done.isSome)
    (rest : List (Option Arrival)) (s : σ) (heap : Heap) :
    recvMsg k pid bufsiz (d.received :: rest) s heap =
      if (inTurn s (d.meanings pid) heap).1.1 = true then
        if d.done.isSome then some (true, (inTurn s (d.meanings pid) heap).1.2,
          (inTurn s (d.meanings pid) heap).2, rest)
        else recvMsg k pid bufsiz rest (inTurn s (d.meanings pid) heap).1.2 (inTurn s (d.meanings pid) heap).2
      else some (false, (inTurn s (d.meanings pid) heap).1.2, (inTurn s (d.meanings pid) heap).2, rest) := by
  have full : d.bytes.take bufsiz ≠ [] := by
    rw [Ne, List.take_eq_nil_iff]
    exact not_or.mpr ⟨by decide, bytes_ne_nil some_⟩
  rw [Datagram.received, recvMsg]
  simp only [if_neg full, ne_eq, not_true_eq_false, or_self, if_false, Arrival.flags]
  by_cases short : d.bytes.length ≤ bufsiz
  · have each : inTurn s (d.meanings pid) heap = untilFailure (Part.meaning pid) s d.messages heap := by
      rw [Datagram.meanings, if_pos short, inTurn, untilFailure_map]
    have length : (UInt64.ofNat d.bytes.length).toNat = d.bytes.length :=
      UInt64.toNat_ofNat_of_lt' (lt_of_le_of_lt short (by decide))
    have decoded := decode_datagram pid d.done d.messages (tests_le d.messages d.done) 0 length s heap
    rw [if_neg (Nat.not_lt.mpr short), if_neg (by decide), List.take_of_length_le short, each]
    simp only [decoded]
    split_ifs with ok done
    · simp only [Datagram.parts, done, if_true]
    · obtain ⟨n, count⟩ := Nat.exists_eq_succ_of_ne_zero
        (mt List.length_eq_zero_iff.mp (some_.resolve_right done))
      simp only [Datagram.parts, done, Bool.false_eq_true, if_false, Nat.zero_add, count]
    · rfl
  · have refused : inTurn s (d.meanings pid) heap = ((false, s), heap) := by
      rw [Datagram.meanings, if_neg short]
      rfl
    rw [if_pos (Nat.lt_of_not_le short), if_pos (by decide), refused, if_neg Bool.false_ne_true]

/-- The messages of an answer do what they say themselves, one after the other. -/
theorem recv_answer (pid : UInt32) (a : Answer k) (rest : List (Option Arrival)) (s : σ) (heap : Heap) :
    ∃ left, recvMsg k pid bufsiz (a.received ++ rest) s heap =
      some ((inTurn s (a.meanings pid) heap).1.1, (inTurn s (a.meanings pid) heap).1.2,
        (inTurn s (a.meanings pid) heap).2, left) ∧
      ((inTurn s (a.meanings pid) heap).1.1 = true → left = rest) := by
  obtain ⟨before, last, goes_on, ends⟩ := a
  simp only [Answer.received, Answer.meanings]
  induction before generalizing s heap with
  | nil =>
    refine ⟨rest, ?_, fun _ => rfl⟩
    rw [List.map_nil, List.nil_append, List.singleton_append, recv_datagram pid (.inr ends), List.flatMap_nil,
      List.nil_append, if_pos ends]
    split_ifs with ok
    · rw [ok]
    · rw [Bool.eq_false_iff.mpr ok]
  | cons d before ih =>
    obtain ⟨⟨none_, some_⟩, goes_on⟩ := List.forall_mem_cons.mp goes_on
    have more : ¬ d.done.isSome := by rw [none_]; exact Bool.false_ne_true
    rw [List.map_cons, List.cons_append, List.cons_append, recv_datagram pid (.inl some_), if_neg more,
      List.flatMap_cons, List.append_assoc (d.meanings pid), inTurn_append]
    by_cases ok : (inTurn s (d.meanings pid) heap).1.1 = true
    · rw [if_pos ok, if_pos ok]
      exact ih _ _ goes_on
    · rw [if_neg ok, if_neg ok]
      refine ⟨before.map Datagram.received ++ [last.received] ++ rest, ?_, fun yes => absurd yes ok⟩
      rw [Bool.eq_false_iff.mpr ok]

theorem recv_accepted {pid : UInt32} {a : Answer k} {s : σ} {heap : Heap}
    (ok : (inTurn s (a.meanings pid) heap).1.1 = true) (rest : List (Option Arrival)) :
    recvMsg k pid bufsiz (a.received ++ rest) s heap =
      some (true, (inTurn s (a.meanings pid) heap).1.2, (inTurn s (a.meanings pid) heap).2, rest) := by
  obtain ⟨left, got, all⟩ := recv_answer pid a rest s heap
  rw [got, all ok, ok]

theorem recv_refused {pid : UInt32} {a : Answer k} {s : σ} {heap : Heap}
    (no : (inTurn s (a.meanings pid) heap).1.1 = false) (rest : List (Option Arrival)) :
    ∃ left, recvMsg k pid bufsiz (a.received ++ rest) s heap =
      some (false, (inTurn s (a.meanings pid) heap).1.2, (inTurn s (a.meanings pid) heap).2, left) := by
  obtain ⟨left, got, -⟩ := recv_answer pid a rest s heap
  exact ⟨left, by rw [got, no]⟩

end Answers

section Init
variable (host : Host)

def ask {σ : Type} (k : Dump σ) (pid : UInt32) (sent : Bool) (incoming : List (Option Arrival)) (s : σ)
    (heap : Heap) : Option (Bool × σ × Heap × List (Option Arrival)) :=
  if sent then recvMsg k pid bufsiz incoming s heap else some (false, s, heap, incoming)

structure Calls where
  socket : Bool
  getlink : Bool
  getneigh : Bool
  getroute : Bool
deriving DecidableEq, Repr

def initNetlinkState (pid : UInt32) (calls : Calls) (incoming : List (Option Arrival)) (cards : List Card)
    (heap : Heap) : Option (Bool × List Card × Heap) :=
  let (buf, heap) := allocate bufsiz heap
  if buf = false then some (false, [], heap)
  else if calls.socket = false then some (false, [], heap)
  else
    match ask (linkDump host) pid calls.getlink incoming cards heap with
    | none => none
    | some (false, _, heap, _) => some (false, [], heap)
    | some (true, cards, heap, incoming) =>
      match ask (neighDump host) pid calls.getneigh incoming cards heap with
      | none => none
      | some (false, _, heap, _) => some (false, [], heap)
      | some (true, cards, heap, incoming) =>
        match ask routeDump pid calls.getroute incoming cards heap with
        | none => none
        | some (false, _, heap, _) => some (false, [], heap)
        | some (true, cards, heap, _) => some (true, cards, heap)

variable {host}

/-- However the answers are cut into datagrams, and whatever a message is followed by: the table is
what the messages say one by one, and 0 is returned, or one of them is refused and the table is
empty. -/
theorem initNetlinkState_table (links : Answer (linkDump host)) (neighbors : Answer (neighDump host))
    (routes : Answer routeDump) (pid : UInt32) (later : List (Option Arrival)) (cards : List Card) (heap : Heap)
    (buf : (allocate bufsiz heap).1 = true) :
    let made := inTurn cards (links.meanings pid ++ (neighbors.meanings pid ++ routes.meanings pid))
      (allocate bufsiz heap).2
    initNetlinkState host pid ⟨true, true, true, true⟩
        (links.received ++ (neighbors.received ++ (routes.received ++ later))) cards heap =
      some (made.1.1, if made.1.1 then made.1.2 else [], made.2) := by
  rcases opened : allocate bufsiz heap with ⟨b, heap'⟩
  rw [opened] at buf
  obtain rfl : b = true := buf
  simp only [initNetlinkState, opened, ask, if_true, Bool.true_eq_false, if_false, inTurn_append]
  cases ok : (inTurn cards (links.meanings pid) heap').1.1 with
  | false =>
    obtain ⟨left, refused⟩ := recv_refused ok (neighbors.received ++ (routes.received ++ later))
    simp only [refused, ok, Bool.false_eq_true, if_false]
  | true =>
    simp only [recv_accepted ok, if_true]
    generalize (inTurn cards (links.meanings pid) heap').1.2 = cards, (inTurn cards (links.meanings pid) heap').2 = heap
    cases ok : (inTurn cards (neighbors.meanings pid) heap).1.1 with
    | false =>
      obtain ⟨left, refused⟩ := recv_refused ok (routes.received ++ later)
      simp only [refused, ok, Bool.false_eq_true, if_false]
    | true =>
      simp only [recv_accepted ok, if_true]
      generalize (inTurn cards (neighbors.meanings pid) heap).1.2 = cards,
        (inTurn cards (neighbors.meanings pid) heap).2 = heap
      cases ok : (inTurn cards (routes.meanings pid) heap).1.1 with
      | false =>
        obtain ⟨left, refused⟩ := recv_refused ok later
        simp only [refused, Bool.false_eq_true, if_false]
      | true => simp only [recv_accepted ok, if_true]

def loopback : Host := ⟨fun _ _ => some 1000, fun _ _ => none, fun _ => 0, fun _ => 0⟩

def done : Done := ⟨true, 1, 7, [0, 0, 0, 0], [], by decide, by decide⟩

def nameAttribute : Rtattr := ⟨iflaIfname, [108, 111, 0], [0], by decide, by decide, by decide⟩

def mtuAttribute : Rtattr := ⟨iflaMtu, [0, 0, 1, 0], [], by decide, by decide, by decide⟩

def loLink : Part (linkDump loopback) where
  multi := true
  seq := 1
  pid := 7
  fixed := [0, 0, 4, 3, 1, 0, 0, 0, 73, 0, 1, 0, 0, 0, 0, 0]
  attributes := [nameAttribute, mtuAttribute]
  whole := rfl
  short := by decide
  fits := ⟨fun _ is => Option.some.inj is ▸ (by decide : 0 ∈ nameAttribute.payload),
    fun _ is => Option.some.inj is ▸ (by decide : 4 ≤ mtuAttribute.payload.length)⟩

def dstAttribute : Rtattr := ⟨rtaDst, [127, 0, 0, 0], [], Netlink.dstAttribute.type_lt, by decide, by decide⟩

def oifAttribute : Rtattr := ⟨rtaOif, [1, 0, 0, 0], [], Netlink.oifAttribute.type_lt, by decide, by decide⟩

def loRoute : Part routeDump where
  multi := true
  seq := 1
  pid := 7
  fixed := [2, 8, 0, 0, 255, 2, 254, 2, 0, 0, 0, 0]
  attributes := [dstAttribute, oifAttribute]
  whole := rfl
  short := by decide
  fits := ⟨fun _ is => Option.some.inj is ▸ (by decide : 1 ≤ dstAttribute.payload.length), nofun,
    fun _ is => Option.some.inj is ▸ (by decide : 4 ≤ oifAttribute.payload.length)⟩

def linkAnswer : Answer (linkDump loopback) where
  before := [⟨[loLink], none⟩]
  last := ⟨[], some done⟩
  goes_on := List.forall_mem_singleton.mpr ⟨rfl, List.cons_ne_nil _ _⟩
  ends := rfl

def neighAnswer : Answer (neighDump loopback) where
  before := []
  last := ⟨[], some done⟩
  goes_on := nofun
  ends := rfl

def routeAnswer : Answer routeDump where
  before := [⟨[loRoute], none⟩]
  last := ⟨[], some done⟩
  goes_on := List.forall_mem_singleton.mpr ⟨rfl, List.cons_ne_nil _ _⟩
  ends := rfl

def datagram (bytes : Bytes) : Option Arrival := some ⟨0, afNetlink, 0, bytes⟩

/-- The loopback interface and its route, each in a datagram of its own. -/
theorem initNetlinkState_table_lo :
    initNetlinkState loopback 7 ⟨true, true, true, true⟩
        ([datagram loLink.bytes, datagram done.bytes, datagram done.bytes, datagram loRoute.bytes, datagram done.bytes]) [] ⟨[], false⟩ =
      some (true, [⟨⟨1, [⟨0x7f000000, 0, 8, 255, 2⟩], [], 0x7f000000⟩, [108, 111], 772, 65536, 1000, none⟩],
        ⟨[], false⟩) :=
  initNetlinkState_table linkAnswer neighAnswer routeAnswer 7 [] [] ⟨[], false⟩ rfl

end Init

end Libdank.Netlink.Dumps
