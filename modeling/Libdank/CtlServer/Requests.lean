import Libdank.CtlServer.Handshake
import Libdank.SocketLines

/-! A request from one end of the control socket to the other: what `libcrosier.c` sends, and what
the server takes for the command and its data, where the data is read by `suck_socket_tmpfile` of
`objects/cmdstate.c`. -/
namespace Libdank.CtlServer
open Parse SocketLines

section Client

/-- What each `write` comes to, by its number: `none` for -1, or how much it would take. -/
abbrev Writes := ℕ → Option ℕ

def written (w : Option ℕ) (bytes : List UInt8) : List UInt8 := bytes.take (w.getD 0)

def whole (w : Option ℕ) (bytes : List UInt8) : Bool := w.any fun count => decide (bytes.length ≤ count)

def sendPieces (writes : Writes) : ℕ → List (List UInt8) → Bool × List UInt8
  | _, [] => (true, [])
  | n, piece :: pieces =>
    if whole (writes n) piece then
      let (ok, out) := sendPieces writes (n + 1) pieces
      (ok, written (writes n) piece ++ out)
    else (false, written (writes n) piece)

/-- `send_ctlrequest`, where `freads` are the pieces of the file and `readable` is whether the end
of the file ends them. -/
def sendCtlrequest (cmd : List UInt8) (memory : Bool) (freads : List (List UInt8)) (readable : Bool)
    (writes : Writes) (shutdown : Bool) : Bool × List UInt8 :=
  let cmd := cmd ++ [0]
  if whole (writes 0) cmd then
    if memory then
      let (ok, out) := sendPieces writes 1 freads
      (ok && readable && shutdown, written (writes 0) cmd ++ out)
    else (false, written (writes 0) cmd)
  else (false, written (writes 0) cmd)

/-- `while(buflen)`, for at most `fuel` rounds. -/
def sendBuf (bufsiz : Bufsiz) (writes : Writes) : ℕ → ℕ → List UInt8 → Bool × List UInt8
  | 0, _, _ => (true, [])
  | fuel + 1, n, buf =>
    if buf = [] then (true, [])
    else
      let tosend := buf.take bufsiz.size
      if whole (writes n) tosend then
        let (ok, out) := sendBuf bufsiz writes fuel (n + 1) (buf.drop bufsiz.size)
        (ok, written (writes n) tosend ++ out)
      else (false, written (writes n) tosend)

/-- A round of the loop sends at least one byte. -/
def sendCtlrequestBuf (bufsiz : Bufsiz) (cmd buf : List UInt8) (writes : Writes) (shutdown : Bool) :
    Bool × List UInt8 :=
  let cmd := cmd ++ [0]
  if whole (writes 0) cmd then
    let (ok, out) := sendBuf bufsiz writes buf.length 1 buf
    (ok && shutdown, written (writes 0) cmd ++ out)
  else (false, written (writes 0) cmd)

theorem written_whole {w : Option ℕ} {bytes : List UInt8} (all : whole w bytes = true) :
    written w bytes = bytes := by
  cases w with
  | none => cases all
  | some count => exact List.take_of_length_le (of_decide_eq_true all)

theorem sendPieces_sent (writes : Writes) (n : ℕ) (pieces : List (List UInt8)) :
    (sendPieces writes n pieces).2 <+: pieces.flatten ∧
      ((sendPieces writes n pieces).1 = true → (sendPieces writes n pieces).2 = pieces.flatten) := by
  induction pieces generalizing n with
  | nil => exact ⟨List.prefix_rfl, fun _ => rfl⟩
  | cons piece pieces ih =>
    rw [sendPieces, List.flatten_cons]
    split_ifs with all
    · obtain ⟨front, rest⟩ := ih (n + 1)
      rw [written_whole all]
      exact ⟨List.prefix_append_right_inj piece |>.mpr front, fun ok => congrArg (piece ++ ·) (rest ok)⟩
    · exact ⟨(List.take_prefix _ _).trans (List.prefix_append _ _), fun ok => ok.elim⟩

theorem sendBuf_sent (bufsiz : Bufsiz) (writes : Writes) (fuel n : ℕ) (buf : List UInt8) :
    (sendBuf bufsiz writes fuel n buf).2 <+: buf ∧ (buf.length ≤ fuel →
      (sendBuf bufsiz writes fuel n buf).1 = true → (sendBuf bufsiz writes fuel n buf).2 = buf) := by
  induction fuel generalizing n buf with
  | zero => exact ⟨List.nil_prefix, fun few _ => (List.length_eq_zero_iff.mp (Nat.le_zero.mp few)).symm⟩
  | succ fuel ih =>
    rw [sendBuf]
    dsimp only
    split_ifs with none_ all
    · exact ⟨List.nil_prefix, fun _ _ => none_.symm⟩
    · obtain ⟨front, rest⟩ := ih (n + 1) (buf.drop bufsiz.size)
      rw [written_whole all]
      have parts := List.take_append_drop bufsiz.size buf
      refine ⟨?_, fun few ok => ?_⟩
      · exact ((List.prefix_append_right_inj _).mpr front).trans (by rw [parts])
      · have less : (buf.drop bufsiz.size).length ≤ fuel := by
          rw [List.length_drop]
          have := bufsiz.pos
          omega
        exact (congrArg (_ ++ ·) (rest less ok)).trans parts
    · exact ⟨(List.take_prefix _ _).trans (List.take_prefix _ _), fun _ ok => ok.elim⟩

def wire (cmd data : List UInt8) : List UInt8 := cmd ++ 0 :: data

theorem sendCtlrequest_sent (cmd : List UInt8) (memory : Bool) (freads : List (List UInt8)) (readable : Bool)
    (writes : Writes) (shutdown : Bool) :
    (sendCtlrequest cmd memory freads readable writes shutdown).2 <+: wire cmd freads.flatten ∧
      ((sendCtlrequest cmd memory freads readable writes shutdown).1 = true →
        (sendCtlrequest cmd memory freads readable writes shutdown).2 = wire cmd freads.flatten) := by
  have shape : wire cmd freads.flatten = (cmd ++ [0]) ++ freads.flatten := by simp [wire]
  obtain ⟨front, rest⟩ := sendPieces_sent writes 1 freads
  have some_ := (List.take_prefix ((writes 0).getD 0) (cmd ++ [0])).trans
    (List.prefix_append (cmd ++ [0]) freads.flatten)
  rw [sendCtlrequest, shape]
  split_ifs with all
  · rw [written_whole all]
    refine ⟨(List.prefix_append_right_inj _).mpr front, fun ok => congrArg (cmd ++ [0] ++ ·) (rest ?_)⟩
    simp only [Bool.and_eq_true] at ok
    exact ok.1.1
  · exact ⟨some_, fun ok => ok.elim⟩
  · exact ⟨some_, fun ok => ok.elim⟩

theorem sendCtlrequestBuf_sent (bufsiz : Bufsiz) (cmd buf : List UInt8) (writes : Writes) (shutdown : Bool) :
    (sendCtlrequestBuf bufsiz cmd buf writes shutdown).2 <+: wire cmd buf ∧
      ((sendCtlrequestBuf bufsiz cmd buf writes shutdown).1 = true →
        (sendCtlrequestBuf bufsiz cmd buf writes shutdown).2 = wire cmd buf) := by
  have shape : wire cmd buf = (cmd ++ [0]) ++ buf := by simp [wire]
  obtain ⟨front, rest⟩ := sendBuf_sent bufsiz writes buf.length 1 buf
  have some_ := (List.take_prefix ((writes 0).getD 0) (cmd ++ [0])).trans (List.prefix_append (cmd ++ [0]) buf)
  rw [sendCtlrequestBuf, shape]
  dsimp only
  split_ifs with all
  · rw [written_whole all]
    refine ⟨(List.prefix_append_right_inj _).mpr front, fun ok => congrArg (cmd ++ [0] ++ ·) (rest le_rfl ?_)⟩
    exact (Bool.and_eq_true _ _ ▸ ok).1
  · exact ⟨some_, fun ok => ok.elim⟩

/-- The data that follows the command, from a file or from a string. -/
inductive Body where
  | file (memory : Bool) (freads : List (List UInt8)) (readable : Bool)
  | buffer (bufsiz : Bufsiz) (buf : List UInt8)

def Body.data : Body → List UInt8
  | file _ freads _ => freads.flatten
  | buffer _ buf => buf

def send (cmd : List UInt8) (body : Body) (writes : Writes) (shutdown : Bool) : Bool × List UInt8 :=
  match body with
  | .file memory freads readable => sendCtlrequest cmd memory freads readable writes shutdown
  | .buffer bufsiz buf => sendCtlrequestBuf bufsiz cmd buf writes shutdown

theorem send_sent (cmd : List UInt8) (body : Body) (writes : Writes) (shutdown : Bool) :
    (send cmd body writes shutdown).2 <+: wire cmd body.data ∧
      ((send cmd body writes shutdown).1 = true → (send cmd body writes shutdown).2 = wire cmd body.data) := by
  cases body with
  | file memory freads readable => exact sendCtlrequest_sent cmd memory freads readable writes shutdown
  | buffer bufsiz buf => exact sendCtlrequestBuf_sent bufsiz cmd buf writes shutdown

end Client

section Server

/-- What `recv_fd` leaves to be read, from index `z` on. -/
def recvLeft (sz : ℕ) : List (Option UInt8) → ℕ → List (Option UInt8)
  | [], _ => []
  | recvd :: rest, z =>
    if z < sz then
      match recvd with
      | none => rest
      | some b => if b = 0 then rest else recvLeft sz rest (z + 1)
    else recvd :: rest

/-- `for( ; ; )` in `suck_socket_tmpfile`, where `fwrites` tells of each byte whether it can be
written; `none` for NULL, and where there is nothing more to be read yet. -/
def suckBytes (fwrites : ℕ → Bool) : ℕ → List ReadResult → Option (List UInt8)
  | _, [] => none
  | _, .eof :: _ => some []
  | tot, .eintr :: results => suckBytes fwrites tot results
  | _, .error _ :: _ => none
  | tot, .byte c :: results =>
    if c = 0 then some []
    else if fwrites tot then (suckBytes fwrites (tot + 1) results).map (c :: ·)
    else none

def suckSocketTmpfile (tmp : Bool) (fwrites : ℕ → Bool) (seeks : Bool) (results : List ReadResult) :
    Option (List UInt8) :=
  if tmp then (suckBytes fwrites 0 results).filter fun _ => seeks else none

/-- The reads that are not interrupted give these octets and then the end. -/
def Reads (octets : List UInt8) (results : List ReadResult) : Prop :=
  results.filter (· ≠ .eintr) = octets.map ReadResult.byte ++ [.eof]

theorem recvLeft_wire {sz : ℕ} {cmd data : List UInt8} (nonzero : 0 ∉ cmd) {z : ℕ} (room : z + cmd.length < sz) :
    recvLeft sz ((wire cmd data).map some) z = data.map some := by
  induction cmd generalizing z with
  | nil =>
    have inside : z < sz := by simpa using room
    simp [wire, recvLeft, inside]
  | cons b cmd ih =>
    have inside : z < sz := by
      rw [List.length_cons] at room
      omega
    have apart : b ≠ 0 := fun zero => nonzero (zero ▸ List.mem_cons_self)
    have shape : (wire (b :: cmd) data).map some = some b :: (wire cmd data).map some := rfl
    rw [shape, recvLeft, if_pos inside, if_neg apart]
    refine ih (fun mem => nonzero (List.mem_cons_of_mem _ mem)) ?_
    rw [List.length_cons] at room
    omega

theorem suckBytes_reads (octets : List UInt8) (tot : ℕ) (results : List ReadResult)
    (reads : Reads octets results) :
    suckBytes (fun _ => true) tot results = some (octets.takeWhile (· ≠ 0)) := by
  induction results generalizing octets tot with
  | nil => simp [Reads] at reads
  | cons r results ih =>
    cases r with
    | eintr => exact ih octets tot (by simpa [Reads] using reads)
    | eof =>
      cases octets with
      | nil => rfl
      | cons b octets => simp [Reads] at reads
    | error code => cases octets <;> simp [Reads] at reads
    | byte c =>
      cases octets with
      | nil => simp [Reads] at reads
      | cons b octets =>
        have parts : c = b ∧ Reads octets results := by simpa [Reads] using reads
        obtain ⟨rfl, rest⟩ := parts
        rw [suckBytes]
        by_cases zero : c = 0
        · rw [if_pos zero, List.takeWhile_cons_of_neg (by simpa using zero)]
        · rw [if_neg zero, if_pos rfl, ih octets (tot + 1) rest, List.takeWhile_cons_of_pos (by simpa using zero)]
          rfl

end Server

section Arrives
variable {cmd data : List UInt8} {a : Arrival} {errfd : ℕ} {cmdbuf : Cmdbuf}

theorem received_map_some (bytes : List UInt8) : received (bytes.map some) = bytes := by
  induction bytes with
  | nil => rfl
  | cons b bytes ih => rw [List.map_cons, received_octet, ih]

theorem command_wire (nonzero : 0 ∉ cmd) (n : ℕ) : command n (wire cmd data) = cmd.take n := by
  induction cmd generalizing n with
  | nil => cases n <;> simp [wire, command_cons]
  | cons b cmd ih =>
    cases n with
    | zero => rw [command_zero, List.take_zero]
    | succ n =>
      have apart : b ≠ 0 := fun zero => nonzero (zero ▸ List.mem_cons_self)
      change command (n + 1) (b :: wire cmd data) = _
      rw [command_cons, if_neg apart, ih fun mem => nonzero (List.mem_cons_of_mem _ mem), List.take_succ_cons]

theorem terminated_wire (short : cmd.length < sizeofCmdbuf) : Terminated sizeofCmdbuf (wire cmd data) := by
  obtain ⟨n, room⟩ := Nat.exists_eq_add_of_lt short
  have left : sizeofCmdbuf - cmd.length = n + 1 := by omega
  rw [Terminated, wire, List.take_append, left, List.take_succ_cons]
  exact List.mem_append_right _ List.mem_cons_self

theorem takeWhile_iff (bytes : List UInt8) : bytes.takeWhile (· ≠ 0) = bytes ↔ 0 ∉ bytes := by
  rw [List.takeWhile_eq_self_iff]
  refine ⟨fun all mem => by simpa using all 0 mem, fun none_ b mem => decide_eq_true ?_⟩
  rintro rfl
  exact none_ mem

theorem ctlservAccept_fd (first : a.first = some (versionOctets, some (sendFd errfd)))
    (enough : Terminated sizeofCmdbuf (received a.stream) ∨ sizeofCmdbuf ≤ (received a.stream).length) :
    (ctlservAccept a cmdbuf sizeofCmdbuf).1 = some (errfd % 256) := by
  have result := recvCommand_result a.stream cmdbuf (Nat.zero_le sizeofCmdbuf)
  rw [Nat.sub_zero, if_pos enough] at result
  rw [ctlservAccept, if_neg (by decide), recvFd_admitted first (by decide) ⟨rfl, rfl, rfl⟩, result]
  simp [sendFd]

theorem bounded_wire (nonzero : 0 ∉ cmd) (admitted : Admitted a) (bytes : a.bytes = wire cmd data)
    (room : cmdbuf.cells.length = sizeofCmdbuf) (fresh : cmdbuf.written = []) :
    Bounded a cmdbuf ↔ cmd.length < sizeofCmdbuf := by
  have enough : Terminated sizeofCmdbuf a.bytes ∨ sizeofCmdbuf ≤ a.bytes.length := by
    rcases Nat.lt_or_ge cmd.length sizeofCmdbuf with short | long
    · exact .inl (bytes ▸ terminated_wire short)
    · refine .inr ?_
      rw [bytes, wire, List.length_append]
      exact long.trans (Nat.le_add_right _ _)
  obtain ⟨-, text, written, shape, earlier⟩ := ctlservAccept_accepted admitted (by decide) enough room
  change _ = command sizeofCmdbuf a.bytes at text
  change _ = (command sizeofCmdbuf a.bytes).length :: _ at shape
  rw [bytes, command_wire nonzero] at text shape
  constructor
  · intro bounded
    have inside := bounded.inside _ (by rw [shape]; exact List.mem_cons_self)
    rw [List.length_take] at inside
    omega
  · intro short
    rw [List.take_of_length_le short.le] at text shape
    refine ⟨fun i mem => ?_, fun _ => ?_⟩
    · rw [shape] at mem
      rcases List.mem_cons.mp mem with rfl | mem
      · exact short
      · exact (earlier i mem).resolve_left (by simp [fresh])
    · by_contra absent
      have size := (ctlservAccept_length a cmdbuf sizeofCmdbuf).trans room
      rw [(takeWhile_iff _).mpr absent] at text
      rw [text] at size
      exact short.ne size

theorem suck_wire (nonzero : 0 ∉ cmd) (short : cmd.length < sizeofCmdbuf) {results : List ReadResult}
    (stream : a.stream = (wire cmd data).map some)
    (reads : Reads (recvLeft sizeofCmdbuf a.stream 0).reduceOption results) :
    suckSocketTmpfile true (fun _ => true) true results = some data ↔ 0 ∉ data := by
  have left : (recvLeft sizeofCmdbuf a.stream 0).reduceOption = data := by
    rw [stream, recvLeft_wire nonzero (by rwa [Nat.zero_add])]
    exact (List.filterMap_map (f := some) (g := id)).trans List.filterMap_some
  rw [left] at reads
  rw [suckSocketTmpfile, if_pos rfl, suckBytes_reads data 0 results reads, Option.filter_some, if_pos rfl,
    Option.some.injEq, takeWhile_iff]

/-- A request that was sent with success is taken for what it is, the buffer respected, just when
the command fits the buffer with its NUL, the descriptor an octet, and there is no NUL in the data. -/
theorem request_arrives {body : Body} {writes : Writes} {shutdown : Bool} (nonzero : 0 ∉ cmd)
    (sent : (send cmd body writes shutdown).1 = true)
    (first : a.first = some (versionOctets, some (sendFd errfd)))
    (stream : a.stream = (send cmd body writes shutdown).2.map some)
    (room : cmdbuf.cells.length = sizeofCmdbuf) (fresh : cmdbuf.written = []) {results : List ReadResult}
    (reads : Reads (recvLeft sizeofCmdbuf a.stream 0).reduceOption results) :
    (Bounded a cmdbuf ∧ (ctlservAccept a cmdbuf sizeofCmdbuf).1 = some errfd ∧
      (connection cmdbuf a).1.handshake = some (charText cmd) ∧
      suckSocketTmpfile true (fun _ => true) true results = some body.data) ↔
    cmd.length < sizeofCmdbuf ∧ errfd < 256 ∧ 0 ∉ body.data := by
  rw [(send_sent cmd body writes shutdown).2 sent] at stream
  have bytes : a.bytes = wire cmd body.data := by rw [Arrival.bytes, stream, received_map_some]
  have admitted : Admitted a := ⟨versionOctets, sendFd errfd, first, by decide, ⟨rfl, rfl, rfl⟩⟩
  rw [bounded_wire nonzero admitted bytes room fresh]
  refine and_congr_right fun short => ?_
  have enough : Terminated sizeofCmdbuf a.bytes ∨ sizeofCmdbuf ≤ a.bytes.length :=
    .inl (bytes ▸ terminated_wire short)
  have shake : (connection cmdbuf a).1.handshake = some (charText cmd) := by
    refine (connection_handshake a room _).mpr ⟨admitted, enough, ?_⟩
    rw [bytes, command_wire nonzero, List.take_of_length_le short.le]
  rw [ctlservAccept_fd first enough, and_iff_right shake, suck_wire nonzero short stream reads, Option.some.injEq,
    Nat.mod_eq_iff_lt (by decide)]

def helpResults : List ReadResult :=
  [.byte 97, .byte 10, .eintr, .byte 98, .byte 10, .eof]

def helpBody : Body := .file true [[97, 10], [98, 10]] true

def helpArrival : Arrival :=
  ⟨some (versionOctets, some (sendFd 2)),
    (send [104, 101, 108, 112] helpBody (fun _ => some 100) true).2.map some, true, true⟩

theorem request_arrives_help : (send [104, 101, 108, 112] helpBody (fun _ => some 100) true).1 = true ∧
    Bounded helpArrival ⟨List.replicate 128 7, []⟩ ∧
    (ctlservAccept helpArrival ⟨List.replicate 128 7, []⟩ sizeofCmdbuf).1 = some 2 ∧
    (connection ⟨List.replicate 128 7, []⟩ helpArrival).1.handshake = some (charText [104, 101, 108, 112]) ∧
    suckSocketTmpfile true (fun _ => true) true helpResults = some [97, 10, 98, 10] := by
  have reads : Reads (recvLeft sizeofCmdbuf helpArrival.stream 0).reduceOption helpResults :=
    show _ = _ by decide
  exact ⟨by decide, (@request_arrives [104, 101, 108, 112] helpArrival 2 ⟨List.replicate 128 7, []⟩ helpBody
    (fun _ => some 100) true (by decide) (by decide) rfl rfl (by simp [sizeofCmdbuf]) rfl helpResults reads).mpr
      (by decide)⟩

end Arrives

end Libdank.CtlServer
