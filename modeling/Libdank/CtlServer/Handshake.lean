import Mathlib.Data.List.TakeWhile
import Libdank.CtlServer.Accepting

/-! How a client of the control socket is received. The client decides what each
receive gives; the version that it sends first is received and not looked at. -/
namespace Libdank.CtlServer
open Parse

def ctlserverProtocolVersion : ℕ := 2

def versionOctets : List UInt8 := [0, 0, 0, UInt8.ofNat ctlserverProtocolVersion]

def solSocket : ℤ := 1

def scmRights : ℤ := 1

def sizeofInt : ℕ := 4

def cmsgLen (bytes : ℕ) : ℕ := 16 + bytes

structure Cmsghdr where
  len : ℕ
  level : ℤ
  type : ℤ
  data : List UInt8
deriving DecidableEq, Repr

/-- What the receives give on a connection: the first one fails, or gives octets
and perhaps a control message; each later one fails or gives an octet, until the
client sends no more. Then whether the descriptor received can be set to close on
exec, and whether there is memory to schedule the command. -/
structure Arrival where
  first : Option (List UInt8 × Option Cmsghdr)
  stream : List (Option UInt8)
  cloexec : Bool
  memory : Bool
deriving DecidableEq, Repr

structure Cmdbuf where
  cells : List UInt8
  written : List ℕ
deriving DecidableEq, Repr

def sizeofCmdbuf : ℕ := 128

def Cmdbuf.write (buf : Cmdbuf) (i : ℕ) (b : UInt8) : Cmdbuf :=
  ⟨buf.cells.set i b, i :: buf.written⟩

def recvCommand (sz : ℕ) : List (Option UInt8) → Cmdbuf → ℕ → Option ℕ × Cmdbuf
  | [], data, z => if z < sz then (none, data) else (some z, data)
  | recvd :: rest, data, z =>
    if z < sz then
      match recvd with
      | none => (none, data)
      | some b =>
        let data := data.write z b
        if b = 0 then (some z, data) else recvCommand sz rest data (z + 1)
    else (some z, data)

/-- The descriptor and the size of the command. `*CMSG_DATA(cmsg)` is one octet. -/
def recvFd (a : Arrival) (data : Cmdbuf) (sz : ℕ) : Option (ℕ × ℕ) × Cmdbuf :=
  match a.first with
  | none => (none, data)
  | some (version, control) =>
    if version.length < 4 then (none, data)
    else
      match control with
      | none => (none, data)
      | some cmsg =>
        if cmsg.len ≠ cmsgLen sizeofInt then (none, data)
        else if cmsg.level ≠ solSocket then (none, data)
        else if cmsg.type ≠ scmRights then (none, data)
        else
          let (z, data) := recvCommand sz a.stream data 0
          (z.map fun z => ((cmsg.data.headD 0).toNat, z), data)

def ctlservAccept (a : Arrival) (cmdbuf : Cmdbuf) (sz : ℕ) : Option ℕ × Cmdbuf :=
  if sz < 2 then (none, cmdbuf)
  else
    match recvFd a cmdbuf sz with
    | (none, cmdbuf) => (none, cmdbuf)
    | (some (fd, sz), cmdbuf) => (some fd, cmdbuf.write sz 0)

def charText (bytes : List UInt8) : Text := bytes.map fun b => Char.ofNat b.toNat

def Cmdbuf.text (buf : Cmdbuf) : Text := charText (buf.cells.takeWhile (· ≠ 0))

/-- What the callback makes of a connection, with the buffer they all share. -/
def connection (cmdbuf : Cmdbuf) (a : Arrival) : Connection × Cmdbuf :=
  let (errsd, cmdbuf) := ctlservAccept a cmdbuf sizeofCmdbuf
  (⟨errsd.map fun _ => cmdbuf.text, a.cloexec, a.memory⟩, cmdbuf)

def connections (cmdbuf : Cmdbuf) : List Arrival → List Connection
  | [] => []
  | a :: rest => (connection cmdbuf a).1 :: connections (connection cmdbuf a).2 rest

/-- The control message of the client's `send_fd` on a little-endian machine. -/
def sendFd (fd : ℕ) : Cmsghdr :=
  ⟨cmsgLen sizeofInt, solSocket, scmRights, [0, 8, 16, 24].map fun i => UInt8.ofNat (fd / 2 ^ i)⟩

structure Cmsghdr.OneDescriptor (cmsg : Cmsghdr) : Prop where
  len : cmsg.len = cmsgLen sizeofInt
  level : cmsg.level = solSocket
  type : cmsg.type = scmRights

def Admitted (a : Arrival) : Prop :=
  ∃ version cmsg, a.first = some (version, some cmsg) ∧ 4 ≤ version.length ∧ cmsg.OneDescriptor

def received (stream : List (Option UInt8)) : List UInt8 :=
  (stream.takeWhile Option.isSome).reduceOption

def Terminated (n : ℕ) (bytes : List UInt8) : Prop := 0 ∈ bytes.take n

/-- The octets of a command in a buffer of `n`. -/
def command (n : ℕ) (bytes : List UInt8) : List UInt8 := (bytes.take n).takeWhile (· ≠ 0)

theorem recvFd_admitted {a : Arrival} {version : List UInt8} {cmsg : Cmsghdr}
    (first : a.first = some (version, some cmsg)) (octets : 4 ≤ version.length)
    (one : cmsg.OneDescriptor) (data : Cmdbuf) (sz : ℕ) :
    recvFd a data sz = ((recvCommand sz a.stream data 0).1.map fun z =>
      ((cmsg.data.headD 0).toNat, z), (recvCommand sz a.stream data 0).2) := by
  simp only [recvFd, first, if_neg (not_lt.mpr octets), one.len, one.level, one.type, ne_eq,
    not_true, if_false]

theorem recvFd_refused {a : Arrival} (refused : ¬ Admitted a) (data : Cmdbuf) (sz : ℕ) :
    recvFd a data sz = (none, data) := by
  unfold recvFd
  cases first : a.first with
  | none => rfl
  | some message =>
    obtain ⟨version, control⟩ := message
    dsimp only
    split_ifs with short
    · rfl
    · cases control with
      | none => rfl
      | some cmsg =>
        dsimp only
        split_ifs with len level type
        · rfl
        · rfl
        · rfl
        · exact absurd ⟨version, cmsg, first, not_lt.mp short, not_not.mp len, not_not.mp level,
            not_not.mp type⟩ refused

instance (n : ℕ) (bytes : List UInt8) : Decidable (Terminated n bytes) :=
  inferInstanceAs (Decidable (0 ∈ bytes.take n))

@[simp] theorem received_nil : received [] = [] := rfl

@[simp] theorem received_error (rest : List (Option UInt8)) : received (none :: rest) = [] := rfl

@[simp] theorem received_octet (b : UInt8) (rest : List (Option UInt8)) :
    received (some b :: rest) = b :: received rest := rfl

@[simp] theorem terminated_zero (bytes : List UInt8) : ¬ Terminated 0 bytes := by simp [Terminated]

@[simp] theorem terminated_nil (n : ℕ) : ¬ Terminated n [] := by simp [Terminated]

theorem terminated_cons (n : ℕ) (b : UInt8) (bytes : List UInt8) :
    Terminated (n + 1) (b :: bytes) ↔ b = 0 ∨ Terminated n bytes := by
  simp [Terminated, eq_comm]

@[simp] theorem command_zero (bytes : List UInt8) : command 0 bytes = [] := by simp [command]

theorem command_cons (n : ℕ) (b : UInt8) (bytes : List UInt8) :
    command (n + 1) (b :: bytes) = if b = 0 then [] else b :: command n bytes := by
  by_cases zero : b = 0 <;> simp [command, zero]

theorem mem_write {data : Cmdbuf} {z sz i : ℕ} {b : UInt8} (inside : z < sz)
    (mem : i ∈ (data.write z b).written) : i ∈ data.written ∨ i < sz := by
  rcases List.mem_cons.mp mem with rfl | mem
  · exact .inr inside
  · exact .inl mem

theorem recvCommand_written (sz : ℕ) (stream : List (Option UInt8)) (data : Cmdbuf) (z : ℕ) :
    ∀ i ∈ (recvCommand sz stream data z).2.written, i ∈ data.written ∨ i < sz := by
  induction stream generalizing data z with
  | nil =>
    intro i hi
    rw [recvCommand] at hi
    split_ifs at hi <;> exact .inl hi
  | cons recvd rest ih =>
    intro i hi
    cases recvd with
    | none =>
      rw [recvCommand] at hi
      split_ifs at hi <;> exact .inl hi
    | some b =>
      rw [recvCommand] at hi
      split_ifs at hi with inside zero
      · exact mem_write inside hi
      · exact (ih (data.write z b) (z + 1) i hi).elim (mem_write inside) .inr
      · exact .inl hi

theorem recvCommand_length (sz : ℕ) (stream : List (Option UInt8)) (data : Cmdbuf) (z : ℕ) :
    (recvCommand sz stream data z).2.cells.length = data.cells.length := by
  induction stream generalizing data z with
  | nil =>
    rw [recvCommand]
    split_ifs <;> rfl
  | cons recvd rest ih =>
    cases recvd with
    | none =>
      rw [recvCommand]
      split_ifs <;> rfl
    | some b =>
      have size : (data.write z b).cells.length = data.cells.length := List.length_set
      rw [recvCommand]
      split_ifs
      · exact size
      · rw [ih, size]
      · rfl

theorem recvCommand_result {sz : ℕ} (stream : List (Option UInt8)) (data : Cmdbuf) {z : ℕ}
    (le : z ≤ sz) :
    (recvCommand sz stream data z).1 =
      if Terminated (sz - z) (received stream) ∨ sz - z ≤ (received stream).length then
        some (z + (command (sz - z) (received stream)).length) else none := by
  induction stream generalizing data z with
  | nil =>
    rw [recvCommand]
    by_cases inside : z < sz
    · have room : ¬ sz - z ≤ 0 := by omega
      simp [inside, room]
    · have full : sz - z = 0 := by omega
      simp [inside, full]
  | cons recvd rest ih =>
    by_cases inside : z < sz
    · obtain ⟨n, hn⟩ := Nat.exists_eq_add_of_lt inside
      have left : sz - z = n + 1 := by omega
      have next : sz - (z + 1) = n := by omega
      cases recvd with
      | none =>
        rw [recvCommand, if_pos inside, left]
        simp
      | some b =>
        rw [recvCommand, if_pos inside, left, received_octet, command_cons]
        simp only [terminated_cons]
        by_cases zero : b = 0
        · simp [zero]
        · have tail := ih (data.write z b) (by omega : z + 1 ≤ sz)
          rw [next] at tail
          rw [if_neg zero, tail]
          simp [zero, Nat.add_assoc, Nat.add_comm 1]
    · have full : sz - z = 0 := by omega
      cases recvd <;> simp [recvCommand, inside, full]

theorem recvCommand_cells {sz : ℕ} (stream : List (Option UInt8)) {data : Cmdbuf} {z : ℕ}
    (room : data.cells.length = sz) (le : z ≤ sz)
    (enough : Terminated (sz - z) (received stream) ∨ sz - z ≤ (received stream).length) :
    (recvCommand sz stream data z).2.cells.take (z + (command (sz - z) (received stream)).length) =
      data.cells.take z ++ command (sz - z) (received stream) := by
  induction stream generalizing data z with
  | nil =>
    have full : sz - z = 0 := by simpa using enough
    have end_ : ¬ z < sz := by omega
    simp [recvCommand, end_, full]
  | cons recvd rest ih =>
    by_cases inside : z < sz
    · obtain ⟨n, hn⟩ := Nat.exists_eq_add_of_lt inside
      have left : sz - z = n + 1 := by omega
      have next : sz - (z + 1) = n := by omega
      rw [left] at enough ⊢
      cases recvd with
      | none => simp at enough
      | some b =>
        have size : (data.write z b).cells.length = sz := by
          rw [Cmdbuf.write, List.length_set, room]
        have front : (data.write z b).cells.take (z + 1) = data.cells.take z ++ [b] := by
          rw [Cmdbuf.write, List.take_succ_eq_append_getElem (by rw [List.length_set]; omega),
            List.getElem_set_self, List.take_set_of_le le_rfl]
        rw [received_octet] at enough ⊢
        rw [terminated_cons] at enough
        rw [recvCommand, if_pos inside, command_cons]
        by_cases zero : b = 0
        · rw [if_pos zero, if_pos zero]
          simp [Cmdbuf.write, List.take_set_of_le]
        · rw [if_neg zero, if_neg zero]
          have tail := ih size (by omega : z + 1 ≤ sz)
          rw [next] at tail
          have cells := tail (by simpa [zero] using enough)
          rw [front] at cells
          have place : z + ((command n (received rest)).length + 1) =
              z + 1 + (command n (received rest)).length := by omega
          rw [List.length_cons, place, cells, List.append_assoc, List.singleton_append]
    · have full : sz - z = 0 := by omega
      cases recvd <;> simp [recvCommand, inside, full]

theorem not_mem_command (n : ℕ) (bytes : List UInt8) : ∀ b ∈ command n bytes, b ≠ 0 := by
  intro b mem
  simpa using List.mem_takeWhile_imp mem

theorem terminated_iff {n : ℕ} {bytes : List UInt8} (enough : Terminated n bytes ∨ n ≤ bytes.length) :
    Terminated n bytes ↔ (command n bytes).length < n := by
  have front : command n bytes <+: bytes.take n := List.takeWhile_prefix _
  have whole := List.takeWhile_eq_self_iff (p := (· ≠ (0 : UInt8))) (l := bytes.take n)
  constructor
  · intro terminated
    refine lt_of_lt_of_le (lt_of_le_of_ne front.length_le fun same => ?_) (List.length_take_le n bytes)
    simpa using whole.mp (front.eq_of_length same) 0 terminated
  · intro shorter
    by_contra absent
    have all : command n bytes = bytes.take n := by
      refine whole.mpr fun b hb => ?_
      simp only [ne_eq, decide_eq_true_eq]
      rintro rfl
      exact absent hb
    have length := enough.resolve_left absent
    rw [all, List.length_take] at shorter
    omega

theorem ctlservAccept_refused {a : Arrival} {sz : ℕ} (refused : ¬ (Admitted a ∧
    (Terminated sz (received a.stream) ∨ sz ≤ (received a.stream).length))) (cmdbuf : Cmdbuf) :
    (ctlservAccept a cmdbuf sz).1 = none ∧
      ∀ i ∈ (ctlservAccept a cmdbuf sz).2.written, i ∈ cmdbuf.written ∨ i < sz := by
  by_cases admitted : Admitted a
  · have result := recvCommand_result a.stream cmdbuf (Nat.zero_le sz)
    have written := recvCommand_written sz a.stream cmdbuf 0
    rw [Nat.sub_zero, if_neg fun enough => refused ⟨admitted, enough⟩] at result
    obtain ⟨version, cmsg, first, octets, one⟩ := admitted
    unfold ctlservAccept
    rw [recvFd_admitted first octets one, result]
    split_ifs
    · exact ⟨rfl, fun i hi => .inl hi⟩
    · exact ⟨rfl, written⟩
  · unfold ctlservAccept
    rw [recvFd_refused admitted]
    split_ifs <;> exact ⟨rfl, fun i hi => .inl hi⟩

theorem ctlservAccept_length (a : Arrival) (cmdbuf : Cmdbuf) (sz : ℕ) :
    (ctlservAccept a cmdbuf sz).2.cells.length = cmdbuf.cells.length := by
  have length := recvCommand_length sz a.stream cmdbuf 0
  by_cases admitted : Admitted a
  · obtain ⟨version, cmsg, first, octets, one⟩ := admitted
    unfold ctlservAccept
    rw [recvFd_admitted first octets one]
    cases (recvCommand sz a.stream cmdbuf 0).1 with
    | none => split_ifs <;> [rfl; exact length]
    | some z => split_ifs <;> [rfl; exact List.length_set.trans length]
  · unfold ctlservAccept
    rw [recvFd_refused admitted]
    split_ifs <;> rfl

theorem takeWhile_set {cells cmd : List UInt8} (front : cells.take cmd.length = cmd)
    (nonzero : ∀ b ∈ cmd, b ≠ 0) :
    (cells.set cmd.length 0).takeWhile (· ≠ 0) = cmd := by
  have all : ∀ b ∈ cmd, decide (b ≠ 0) = true := fun b hb => decide_eq_true (nonzero b hb)
  rcases Nat.lt_or_ge cmd.length cells.length with inside | full
  · rw [List.set_eq_take_append_cons_drop, if_pos inside, front, List.takeWhile_append_of_pos all,
      List.takeWhile_cons_of_neg (by simp), List.append_nil]
  · rw [List.set_eq_of_length_le full]
    rw [List.take_of_length_le full] at front
    rw [front]
    exact List.takeWhile_eq_self_iff.mpr all

/-- Anyone else is accepted, and the command is as much as has arrived up to a NUL
or fits the buffer; the NUL goes behind it. -/
theorem ctlservAccept_accepted {a : Arrival} (admitted : Admitted a) {sz : ℕ} (wide : 2 ≤ sz)
    (enough : Terminated sz (received a.stream) ∨ sz ≤ (received a.stream).length)
    {cmdbuf : Cmdbuf} (room : cmdbuf.cells.length = sz) :
    (ctlservAccept a cmdbuf sz).1.isSome ∧
    (ctlservAccept a cmdbuf sz).2.cells.takeWhile (· ≠ 0) = command sz (received a.stream) ∧
    ∃ written, (ctlservAccept a cmdbuf sz).2.written =
        (command sz (received a.stream)).length :: written ∧
      ∀ i ∈ written, i ∈ cmdbuf.written ∨ i < sz := by
  have cells := recvCommand_cells a.stream room (Nat.zero_le sz) enough
  have result := recvCommand_result a.stream cmdbuf (Nat.zero_le sz)
  rw [Nat.sub_zero, Nat.zero_add, List.take_zero, List.nil_append] at cells
  rw [Nat.sub_zero, if_pos enough, Nat.zero_add] at result
  obtain ⟨version, cmsg, first, octets, one⟩ := admitted
  have accept : ctlservAccept a cmdbuf sz = (some (cmsg.data.headD 0).toNat,
      (recvCommand sz a.stream cmdbuf 0).2.write (command sz (received a.stream)).length 0) := by
    rw [ctlservAccept, if_neg (not_lt.mpr wide), recvFd_admitted first octets one, result]
    rfl
  rw [accept]
  exact ⟨rfl, takeWhile_set cells (not_mem_command _ _), _, rfl, recvCommand_written sz _ _ _⟩

def Arrival.bytes (a : Arrival) : List UInt8 := received a.stream

/-- The client passes the checks that are made, and what it sends is taken for the
command `cmd`. -/
structure Sends (a : Arrival) (cmd : Text) : Prop where
  admitted : Admitted a
  enough : Terminated sizeofCmdbuf a.bytes ∨ sizeofCmdbuf ≤ a.bytes.length
  text : cmd = charText (command sizeofCmdbuf a.bytes)

theorem connection_handshake (a : Arrival) {cmdbuf : Cmdbuf}
    (room : cmdbuf.cells.length = sizeofCmdbuf) (cmd : Text) :
    (connection cmdbuf a).1.handshake = some cmd ↔ Sends a cmd := by
  by_cases accepted : Admitted a ∧
      (Terminated sizeofCmdbuf a.bytes ∨ sizeofCmdbuf ≤ a.bytes.length)
  · obtain ⟨admitted, enough⟩ := accepted
    obtain ⟨some_, text, -⟩ := ctlservAccept_accepted admitted (by decide) enough room
    obtain ⟨fd, fd_⟩ := Option.isSome_iff_exists.mp some_
    have shake : (connection cmdbuf a).1.handshake =
        some (charText (command sizeofCmdbuf a.bytes)) := by
      rw [connection]
      dsimp only
      rw [fd_, Option.map_some, Cmdbuf.text, text]
      rfl
    rw [shake, Option.some.injEq]
    exact ⟨fun same => ⟨admitted, enough, same.symm⟩, fun sends => sends.text.symm⟩
  · have none_ : (connection cmdbuf a).1.handshake = none := by
      rw [connection]
      dsimp only
      rw [(ctlservAccept_refused accepted cmdbuf).1, Option.map_none]
    rw [none_]
    exact iff_of_false (by simp) fun sends => accepted ⟨sends.admitted, sends.enough⟩

/-- The descriptor returned is the one that was passed just when it fits an octet. -/
theorem recvFd_returns_iff (fd : ℕ) {a : Arrival} {version : List UInt8}
    (passed : a.first = some (version, some (sendFd fd))) {data : Cmdbuf} {sz ret sz' : ℕ}
    (accepted : (recvFd a data sz).1 = some (ret, sz')) : ret = fd ↔ fd < 256 := by
  by_cases admitted : Admitted a
  · obtain ⟨version', cmsg, first, octets, one⟩ := admitted
    obtain ⟨rfl, rfl⟩ : version = version' ∧ sendFd fd = cmsg := by
      simpa using passed.symm.trans first
    rw [recvFd_admitted first octets one] at accepted
    obtain ⟨z, -, same⟩ := Option.map_eq_some_iff.mp accepted
    obtain ⟨octet, -⟩ := Prod.mk.inj same
    have low : ret = fd % 256 := by
      rw [← octet]
      simp [sendFd]
    omega
  · rw [recvFd_refused admitted] at accepted
    simp at accepted

theorem recvFd_returns_two :
    (recvFd ⟨some (versionOctets, some (sendFd 2)), [some 120, some 0], true, true⟩ ⟨[1, 1, 1], []⟩ 3).1 =
      some (2, 1) ∧ (2 = 2 ↔ 2 < 256) :=
  ⟨by decide, @recvFd_returns_iff 2 ⟨some (versionOctets, some (sendFd 2)), [some 120, some 0], true, true⟩
    versionOctets rfl ⟨[1, 1, 1], []⟩ 3 2 1 (by decide)⟩

/-- The 257th descriptor comes out as the first. -/
theorem recvFd_truncates :
    (recvFd ⟨some (versionOctets, some (sendFd 256)), [some 120, some 0], true, true⟩ ⟨[1, 1, 1], []⟩
      3).1 = some (0, 1) ∧ 0 ≠ 256 := by
  decide

/-- No write outside the buffer, and a NUL in it when the command is looked up. -/
structure Bounded (a : Arrival) (cmdbuf : Cmdbuf) : Prop where
  inside : ∀ i ∈ (ctlservAccept a cmdbuf sizeofCmdbuf).2.written, i < sizeofCmdbuf
  terminated : (ctlservAccept a cmdbuf sizeofCmdbuf).1.isSome →
    0 ∈ (ctlservAccept a cmdbuf sizeofCmdbuf).2.cells

/-- After a valid handshake the buffer is respected just when a NUL is among the
first octets that could fill it, or fewer than that arrive. -/
theorem ctlservAccept_bounded_iff {a : Arrival} (admitted : Admitted a) {cmdbuf : Cmdbuf}
    (room : cmdbuf.cells.length = sizeofCmdbuf) (fresh : cmdbuf.written = []) :
    Bounded a cmdbuf ↔ 0 ∈ a.bytes.take sizeofCmdbuf ∨ a.bytes.length < sizeofCmdbuf := by
  by_cases enough : Terminated sizeofCmdbuf a.bytes ∨ sizeofCmdbuf ≤ a.bytes.length
  · obtain ⟨-, text, written, shape, earlier⟩ :=
      ctlservAccept_accepted admitted (by decide) enough room
    have size := (ctlservAccept_length a cmdbuf sizeofCmdbuf).trans room
    have last := terminated_iff enough
    change 0 ∈ a.bytes.take sizeofCmdbuf ↔ _ at last
    constructor
    · intro bounded
      refine .inl (last.mpr (bounded.inside _ ?_))
      rw [shape]
      exact List.mem_cons_self
    · intro met
      have inside := last.mp (met.elim id fun few => enough.resolve_right (not_le.mpr few))
      refine ⟨fun i hi => ?_, fun _ => ?_⟩
      · rw [shape] at hi
        rcases List.mem_cons.mp hi with rfl | hi
        · exact inside
        · exact (earlier i hi).resolve_left (by simp [fresh])
      · by_contra absent
        have all : (ctlservAccept a cmdbuf sizeofCmdbuf).2.cells.takeWhile (· ≠ 0) =
            (ctlservAccept a cmdbuf sizeofCmdbuf).2.cells := by
          refine List.takeWhile_eq_self_iff.mpr fun b hb => ?_
          simp only [ne_eq, decide_eq_true_eq]
          rintro rfl
          exact absent hb
        have length := congrArg List.length (text.symm.trans all)
        rw [size] at length
        exact inside.ne length
  · obtain ⟨none_, written⟩ := @ctlservAccept_refused a sizeofCmdbuf (fun h => enough h.2) cmdbuf
    have few : a.bytes.length < sizeofCmdbuf := not_le.mp fun le => enough (.inr le)
    refine iff_of_true ⟨fun i hi => (written i hi).resolve_left (by simp [fresh]), fun some_ => ?_⟩
      (.inr few)
    simp [none_] at some_

theorem ctlservAccept_bounded_help :
    Bounded ⟨some (versionOctets, some (sendFd 2)), "help".toList.map (fun c => some c.toUInt8) ++ [some 0],
      true, true⟩ ⟨List.replicate 128 7, []⟩ :=
  (ctlservAccept_bounded_iff ⟨_, _, rfl, by decide, rfl, rfl, rfl⟩ (by simp [sizeofCmdbuf]) rfl).mpr
    (.inl (by decide))

/-- A buffer's worth of octets other than NUL puts the NUL behind the buffer. -/
theorem ctlservAccept_overruns :
    let a : Arrival := ⟨some (versionOctets, some (sendFd 2)), List.replicate 128 (some 120), true, true⟩
    ¬ Bounded a ⟨List.replicate 128 7, []⟩ ∧
      128 ∈ (ctlservAccept a ⟨List.replicate 128 7, []⟩ sizeofCmdbuf).2.written ∧
      0 ∉ (ctlservAccept a ⟨List.replicate 128 7, []⟩ sizeofCmdbuf).2.cells := by
  have written : 128 ∈ (ctlservAccept ⟨some (versionOctets, some (sendFd 2)),
      List.replicate 128 (some 120), true, true⟩ ⟨List.replicate 128 7, []⟩ sizeofCmdbuf).2.written := by
    decide +kernel
  refine ⟨fun bounded => absurd (bounded.inside 128 written) (by decide), written, ?_⟩
  decide +kernel

/-- A server command is run for the connection, or a registered one scheduled. -/
def commanded (n : ℕ) (events : List Event) : Bool :=
  events.any fun e =>
    match e with
    | .run m _ => m = n
    | .handed m _ => m = n
    | _ => false

/-- The connection brings a command that is known, and nothing fails. -/
def Commanding (s : Server) (c : Connection) : Prop :=
  ∃ cmd, c.handshake = some cmd ∧ c.cloexec = true ∧
    (cmd ∈ serverCommands ∨ (s.lookup cmd).isSome ∧ c.memory = true)

theorem localaccept_stops {s : Server} {c : Connection} (not_ : ¬ Schedulable s c) (n m : ℕ)
    (pending : List Connection) :
    commanded m (localaccept s n (c :: pending)).events = true ↔ m = n ∧ Commanding s c := by
  rw [localaccept]
  cases shake : c.handshake with
  | none => simp [commanded, Commanding, shake]
  | some cmdbuf =>
    by_cases cloexec : c.cloexec = false
    · simp [cloexec, commanded, Commanding]
    · simp only [if_neg cloexec]
      have set_ : c.cloexec = true := by simpa using cloexec
      by_cases internal : cmdbuf ∈ serverCommands
      · simp only [checkForServerCommand, if_pos internal]
        have commanding : Commanding s c := ⟨cmdbuf, shake, set_, .inl internal⟩
        simp [commanded, commanding, closeCmdState, eq_comm]
      · simp only [checkForServerCommand, if_neg internal]
        rcases scheduleConnection_cases s n cmdbuf c.memory with ⟨found, able, -⟩ | ⟨refused, message, eq⟩
        · exact absurd ⟨cmdbuf, shake, set_, internal, found, able⟩ not_
        · rw [eq]
          simp [commanded, Commanding, shake, internal, refused]

theorem commanding_of_schedulable {s : Server} {c : Connection} (can : Schedulable s c) :
    Commanding s c := by
  obtain ⟨cmd, shake, cloexec, -, found, able⟩ := can
  exact ⟨cmd, shake, cloexec, .inr ⟨found, able⟩⟩

theorem commanding_congr {s t : Server} (lookup : ∀ cmd, t.lookup cmd = s.lookup cmd)
    (c : Connection) : Commanding t c ↔ Commanding s c := by
  simp only [Commanding, lookup]

theorem localaccept_commanded (s : Server) (n m : ℕ) (pending : List Connection) :
    commanded m (localaccept s n pending).events = true ↔
      ∃ i c, m = n + i ∧ pending[i]? = some c ∧
        (∀ j < i, ∀ d, pending[j]? = some d → Schedulable s d) ∧ Commanding s c := by
  induction pending generalizing s n with
  | nil => simp [localaccept, commanded]
  | cons c pending ih =>
    by_cases can : Schedulable s c
    · obtain ⟨cmd, t, -, lookup, eq⟩ | ⟨cannot, -⟩ := localaccept_cons s n c pending
      · have events : commanded m (localaccept s n (c :: pending)).events = true ↔
            m = n ∨ commanded m (localaccept t (n + 1) pending).events = true := by
          rw [eq]
          change (decide (n = m) || commanded m (localaccept t (n + 1) pending).events) = true ↔ _
          rw [Bool.or_eq_true, decide_eq_true_eq, eq_comm]
        simp only [events, ih, schedulable_congr lookup, commanding_congr lookup]
        constructor
        · rintro (rfl | ⟨i, d, rfl, here, before, commanding⟩)
          · exact ⟨0, c, rfl, rfl, by simp, commanding_of_schedulable can⟩
          · refine ⟨i + 1, d, by omega, here, fun j hj e he => ?_, commanding⟩
            cases j with
            | zero =>
              obtain rfl := Option.some.inj he
              exact can
            | succ j => exact before j (by omega) e he
        · rintro ⟨i, d, rfl, here, before, commanding⟩
          cases i with
          | zero => exact .inl rfl
          | succ i =>
            exact .inr ⟨i, d, by omega, here, fun j hj e he => before (j + 1) (by omega) e he,
              commanding⟩
      · exact absurd can cannot
    · rw [localaccept_stops can]
      constructor
      · rintro ⟨rfl, commanding⟩
        exact ⟨0, c, rfl, rfl, by simp, commanding⟩
      · rintro ⟨i, d, rfl, here, before, commanding⟩
        cases i with
        | zero =>
          obtain rfl := Option.some.inj here
          exact ⟨rfl, commanding⟩
        | succ i => exact absurd (before 0 (by omega) c rfl) can

/-- What the protocol asks of a client: the version, one descriptor, and a command
that ends with a NUL. -/
structure Lawful (a : Arrival) : Prop where
  opened : ∃ cmsg, a.first = some (versionOctets, some cmsg) ∧ cmsg.OneDescriptor
  terminated : Terminated sizeofCmdbuf a.bytes

/-- Only for a lawful client is a command run or scheduled, and the connection of
any other is closed. -/
def Guarded (s : Server) (cmdbuf : Cmdbuf) (arrivals : List Arrival) : Prop :=
  ∀ (i : ℕ) (a : Arrival), arrivals[i]? = some a →
    (commanded i (localaccept s 0 (connections cmdbuf arrivals)).events = true → Lawful a) ∧
    (i < (localaccept s 0 (connections cmdbuf arrivals)).count → ¬ Lawful a →
      .closeSd i ∈ (localaccept s 0 (connections cmdbuf arrivals)).events ∧
        commanded i (localaccept s 0 (connections cmdbuf arrivals)).events = false)

def Queues (s : Server) (a : Arrival) : Prop :=
  ∃ cmd, Sends a cmd ∧ a.cloexec = true ∧ cmd ∉ serverCommands ∧ (s.lookup cmd).isSome ∧
    a.memory = true

/-- A client that names a known command has sent the version, and a NUL in time. -/
def Met (s : Server) (a : Arrival) : Prop :=
  ∀ cmd, Sends a cmd → a.cloexec = true →
    (cmd ∈ serverCommands ∨ (s.lookup cmd).isSome ∧ a.memory = true) →
      (∃ cmsg, a.first = some (versionOctets, cmsg)) ∧ 0 ∈ a.bytes.take sizeofCmdbuf

theorem connections_getElem? {cmdbuf : Cmdbuf} (room : cmdbuf.cells.length = sizeofCmdbuf)
    (arrivals : List Arrival) (i : ℕ) :
    ∃ buf : Cmdbuf, buf.cells.length = sizeofCmdbuf ∧
      (connections cmdbuf arrivals)[i]? = arrivals[i]?.map fun a => (connection buf a).1 := by
  induction arrivals generalizing cmdbuf i with
  | nil => exact ⟨cmdbuf, room, rfl⟩
  | cons a rest ih =>
    cases i with
    | zero => exact ⟨cmdbuf, room, rfl⟩
    | succ i => exact ih ((ctlservAccept_length a cmdbuf sizeofCmdbuf).trans room) i

theorem schedulable_connection (s : Server) {cmdbuf : Cmdbuf}
    (room : cmdbuf.cells.length = sizeofCmdbuf) (a : Arrival) :
    Schedulable s (connection cmdbuf a).1 ↔ Queues s a := by
  simp only [Schedulable, connection_handshake a room]
  rfl

theorem commanding_connection (s : Server) {cmdbuf : Cmdbuf}
    (room : cmdbuf.cells.length = sizeofCmdbuf) (a : Arrival) :
    Commanding s (connection cmdbuf a).1 ↔ ∃ cmd, Sends a cmd ∧ a.cloexec = true ∧
      (cmd ∈ serverCommands ∨ (s.lookup cmd).isSome ∧ a.memory = true) := by
  simp only [Commanding, connection_handshake a room]
  rfl

theorem localaccept_commanded_arrivals (s : Server) {cmdbuf : Cmdbuf}
    (room : cmdbuf.cells.length = sizeofCmdbuf) (arrivals : List Arrival) (i : ℕ) :
    commanded i (localaccept s 0 (connections cmdbuf arrivals)).events = true ↔
      ∃ a, arrivals[i]? = some a ∧ (∀ j < i, ∀ b, arrivals[j]? = some b → Queues s b) ∧
        ∃ cmd, Sends a cmd ∧ a.cloexec = true ∧
          (cmd ∈ serverCommands ∨ (s.lookup cmd).isSome ∧ a.memory = true) := by
  rw [localaccept_commanded]
  have at_ := connections_getElem? room arrivals
  have queued : (∀ j < i, ∀ d, (connections cmdbuf arrivals)[j]? = some d → Schedulable s d) ↔
      ∀ j < i, ∀ b, arrivals[j]? = some b → Queues s b := by
    refine forall₂_congr fun j _ => ?_
    obtain ⟨buf, size, eq⟩ := at_ j
    rw [eq]
    simp [Option.map_eq_some_iff, schedulable_connection s size]
  obtain ⟨buf, size, eq⟩ := at_ i
  constructor
  · rintro ⟨i', c, same, here, before, commanding⟩
    obtain rfl : i = i' := by omega
    rw [eq] at here
    obtain ⟨a, found, rfl⟩ := Option.map_eq_some_iff.mp here
    exact ⟨a, found, queued.mp before, (commanding_connection s size a).mp commanding⟩
  · rintro ⟨a, here, before, commanding⟩
    refine ⟨i, (connection buf a).1, by omega, ?_, queued.mpr before,
      (commanding_connection s size a).mpr commanding⟩
    rw [eq, here, Option.map_some]

theorem localaccept_closes (s : Server) (pending : List Connection) {i : ℕ}
    (accepted : i < (localaccept s 0 pending).count)
    (idle : commanded i (localaccept s 0 pending).events = false) :
    .closeSd i ∈ (localaccept s 0 pending).events := by
  have once := localaccept_settled s 0 pending i
  rw [if_pos ⟨Nat.zero_le i, accepted⟩] at once
  obtain ⟨e, mem, here⟩ := List.countP_pos_iff.mp (once.symm ▸ one_pos : 0 < settled i _)
  have other := List.any_eq_false.mp idle e mem
  cases e with
  | closeSd m =>
    obtain rfl : m = i := by simpa using here
    exact mem
  | handed m cmd => exact absurd here other
  | closeErrsd m => simp at here
  | run m cmd => simp at here
  | writeErrsd m message => simp at here

/-- Commands are guarded just when each client that is reached and names a known
one has sent the version, and a NUL in time. -/
theorem localaccept_guarded_iff (s : Server) {cmdbuf : Cmdbuf}
    (room : cmdbuf.cells.length = sizeofCmdbuf) (arrivals : List Arrival) :
    Guarded s cmdbuf arrivals ↔ ∀ (i : ℕ) (a : Arrival), arrivals[i]? = some a →
      (∀ j < i, ∀ b, arrivals[j]? = some b → Queues s b) → Met s a := by
  constructor
  · intro guarded i a here before cmd sends cloexec known
    have commanded_ := (localaccept_commanded_arrivals s room arrivals i).mpr
      ⟨a, here, before, cmd, sends, cloexec, known⟩
    obtain ⟨⟨cmsg, first, -⟩, terminated⟩ := (guarded i a here).1 commanded_
    exact ⟨⟨some cmsg, first⟩, terminated⟩
  · intro met i a here
    have lawful (commanded_ : commanded i (localaccept s 0 (connections cmdbuf arrivals)).events =
        true) : Lawful a := by
      obtain ⟨a', here', before, cmd, sends, cloexec, known⟩ :=
        (localaccept_commanded_arrivals s room arrivals i).mp commanded_
      obtain rfl := Option.some.inj (here.symm.trans here')
      obtain ⟨⟨control, first⟩, terminated⟩ := met i a here before cmd sends cloexec known
      obtain ⟨version, cmsg, first', octets, one⟩ := sends.admitted
      obtain ⟨rfl, rfl⟩ : versionOctets = version ∧ control = some cmsg := by
        simpa using first.symm.trans first'
      exact ⟨⟨cmsg, first, one⟩, terminated⟩
    refine ⟨lawful, fun accepted unlawful => ?_⟩
    have idle : commanded i (localaccept s 0 (connections cmdbuf arrivals)).events = false :=
      Bool.eq_false_iff.mpr fun commanded_ => unlawful (lawful commanded_)
    exact ⟨localaccept_closes s _ accepted idle, idle⟩

/-- A client as the document has it, and one who sends no command at all. -/
theorem localaccept_guarded_noop :
    Guarded stopped ⟨List.replicate 128 7, []⟩
      [⟨some (versionOctets, some (sendFd 2)), "internal_noop".toList.map (fun c => some c.toUInt8) ++
          [some 0], true, true⟩,
        ⟨some ([], none), [], true, true⟩] := by
  refine (localaccept_guarded_iff stopped (by simp [sizeofCmdbuf]) _).mpr fun i a here _ => ?_
  intro cmd sends _ _
  match i with
  | 0 =>
    obtain rfl := Option.some.inj here
    exact ⟨⟨_, rfl⟩, by decide⟩
  | 1 =>
    obtain rfl := Option.some.inj here
    obtain ⟨version, cmsg, first, -⟩ := sends.admitted
    simp at first
  | i + 2 => simp at here

/-- A client of another version has its command run. -/
theorem localaccept_ignores_version :
    let a : Arrival := ⟨some ([0, 0, 0, 9], some (sendFd 2)),
      "internal_noop".toList.map (fun c => some c.toUInt8) ++ [some 0], true, true⟩
    (localaccept stopped 0 (connections ⟨List.replicate 128 7, []⟩ [a])).events =
        [.run 0 "internal_noop".toList, .closeSd 0, .closeErrsd 0] ∧
      ¬ Guarded stopped ⟨List.replicate 128 7, []⟩ [a] := by
  have events : (localaccept stopped 0 (connections ⟨List.replicate 128 7, []⟩
      [⟨some ([0, 0, 0, 9], some (sendFd 2)),
        "internal_noop".toList.map (fun c => some c.toUInt8) ++ [some 0], true, true⟩])).events =
      [.run 0 "internal_noop".toList, .closeSd 0, .closeErrsd 0] := by decide +kernel
  refine ⟨events, fun guarded => ?_⟩
  obtain ⟨⟨cmsg, first, -⟩, -⟩ := (guarded 0 _ rfl).1 (by rw [events]; decide)
  exact absurd first (by simp [versionOctets, ctlserverProtocolVersion])

end Libdank.CtlServer
