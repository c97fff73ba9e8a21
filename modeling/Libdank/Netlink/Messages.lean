import Libdank.Netlink.Attributes

/-! Datagrams of well-formed messages, and the loop that the three `decode_get…_msg` have in common.
The attributes of a message are looked for in the whole rest of the datagram: a message that follows
reads as one attribute of type 0. -/
namespace Libdank.Netlink
open LittleEndian Requests

structure Rtattr where
  type : ℕ
  payload : Bytes
  padding : Bytes
  type_lt : type < 2 ^ 16
  short : 4 + payload.length < 2 ^ 16
  padded : 4 + payload.length + padding.length = rtaAlign (4 + payload.length)

def Rtattr.bytes (a : Rtattr) : Bytes :=
  wire 2 (4 + a.payload.length) ++ (wire 2 a.type ++ (a.payload ++ a.padding))

structure Nlmsghdr where
  len : ℕ
  type : ℕ
  multi : Bool
  seq : ℕ
  pid : UInt32
  least : 16 ≤ len
  short : len < 2 ^ 16
  type_lt : type < 2 ^ 16

def Nlmsghdr.flags (h : Nlmsghdr) : ℕ := if h.multi then 2 else 0

def Nlmsghdr.bytes (h : Nlmsghdr) : Bytes :=
  wire 4 h.len ++ (wire 2 h.type ++ (wire 2 h.flags ++ (wire 4 h.seq ++ wire 4 h.pid.toNat)))

section Header
variable (h : Nlmsghdr) (rest : Bytes)

theorem length_header : h.bytes.length = 16 := by simp [Nlmsghdr.bytes]

theorem nlmsgLen_header : nlmsgLen (h.bytes ++ rest) = h.len := by
  have fits : h.len < 256 ^ 4 := lt_trans h.short (by decide)
  rw [nlmsgLen, Nlmsghdr.bytes, List.append_assoc, peek_wire_append fits]

theorem nlmsgType_header : nlmsgType (h.bytes ++ rest) = h.type := by
  rw [nlmsgType, Nlmsghdr.bytes, List.append_assoc, drop_wire_append, List.append_assoc,
    peek_wire_append h.type_lt]

theorem nlmsgFlags_header : nlmsgFlags (h.bytes ++ rest) = h.flags := by
  have fits : h.flags < 256 ^ 2 := by
    unfold Nlmsghdr.flags
    split <;> decide
  rw [nlmsgFlags, Nlmsghdr.bytes, List.append_assoc, ← List.drop_drop (i := 2) (j := 4), drop_wire_append,
    List.append_assoc, drop_wire_append, List.append_assoc, peek_wire_append fits]

theorem nlmsgPid_header : nlmsgPid (h.bytes ++ rest) = h.pid.toNat := by
  have fits : h.pid.toNat < 256 ^ 4 := h.pid.toNat_lt
  have before : h.bytes ++ rest = (wire 4 h.len ++ (wire 2 h.type ++ (wire 2 h.flags ++ wire 4 h.seq))) ++
      (wire 4 h.pid.toNat ++ rest) := by
    simp [Nlmsghdr.bytes]
  rw [nlmsgPid, before, List.drop_left' (by simp), peek_wire_append fits]

theorem rtaLen_header : rtaLen (h.bytes ++ rest) = h.len := by
  rw [rtaLen, Nlmsghdr.bytes, wire_add 2 2, List.append_assoc, List.append_assoc, peek_wire_append h.short]

theorem rtaType_header : rtaType (h.bytes ++ rest) = 0 := by
  have high : h.len / 256 ^ 2 = 0 := Nat.div_eq_of_lt h.short
  rw [rtaType, Nlmsghdr.bytes, wire_add 2 2, List.append_assoc, List.append_assoc, drop_wire_append, high,
    peek_wire_append (by decide)]

end Header

section Chunks

/-- Bytes that are walked over as one attribute. -/
structure Chunk (c : Bytes) : Prop where
  header : 4 ≤ c.length
  long : 4 ≤ rtaLen c
  whole : rtaAlign (rtaLen c) = c.length

theorem rtaLen_append {c : Bytes} (chunk : Chunk c) (rest : Bytes) : rtaLen (c ++ rest) = rtaLen c :=
  peek_append (le_trans (by decide) chunk.header) rest

theorem rtaType_append {c : Bytes} (chunk : Chunk c) (rest : Bytes) :
    rtaType (c ++ rest) = rtaType c := by
  have header := chunk.header
  rw [rtaType, List.drop_append_of_le_length (by omega),
    peek_append (by rw [List.length_drop]; omega)]
  rfl

theorem Rtattr.chunk (a : Rtattr) : Chunk a.bytes := by
  have length : rtaLen a.bytes = 4 + a.payload.length := peek_wire_append a.short _
  have bytes : a.bytes.length = 4 + a.payload.length + a.padding.length := by
    simp only [Rtattr.bytes, List.length_append, length_wire]
    omega
  refine ⟨by omega, by omega, ?_⟩
  rw [length, bytes, a.padded]

theorem Rtattr.rtaType_bytes (a : Rtattr) : rtaType a.bytes = a.type := by
  rw [rtaType, Rtattr.bytes, drop_wire_append, peek_wire_append a.type_lt]

def storedOf (sentinel : ℕ) : List Bytes → List (ℕ × Bytes)
  | [] => []
  | c :: cs =>
    if rtaType c < sentinel then (rtaType c, c ++ cs.flatten) :: storedOf sentinel cs
    else storedOf sentinel cs

theorem toNat_rest {c rest : Bytes} {len : UInt64} (length : len.toNat = (c ++ rest).length) :
    (len - UInt64.ofNat c.length).toNat = rest.length := by
  have word := len.toNat_lt
  rw [List.length_append] at length
  have taken : (UInt64.ofNat c.length).toNat = c.length :=
    UInt64.toNat_ofNat_of_lt' (by simp only [UInt64.size]; omega)
  rw [UInt64.toNat_sub_of_le, taken]
  · omega
  · rw [UInt64.le_iff_toNat_le, taken]
    omega

theorem parseRtattr_chunks (sentinel : ℕ) (cs : List Bytes) (chunks : ∀ c ∈ cs, Chunk c) :
    ∀ {fuel : ℕ}, cs.length < fuel → ∀ {len : UInt64}, len.toNat = cs.flatten.length →
      ∃ headers, parseRtattr sentinel fuel cs.flatten len = some ⟨headers, storedOf sentinel cs, 0⟩ := by
  induction cs with
  | nil =>
    intro fuel enough len length
    obtain ⟨fuel, rfl⟩ := Nat.exists_eq_add_one.mpr enough
    obtain rfl : len = 0 := UInt64.toNat_inj.mp length
    exact ⟨[], rfl⟩
  | cons c cs ih =>
    intro fuel enough len length
    obtain ⟨fuel, rfl⟩ := Nat.exists_eq_add_one.mpr (lt_of_le_of_lt (Nat.zero_le _) enough)
    obtain ⟨chunk, chunks⟩ := List.forall_mem_cons.mp chunks
    rw [List.flatten_cons] at length ⊢
    obtain ⟨headers, walk⟩ := ih chunks (Nat.lt_of_succ_lt_succ enough) (toNat_rest length)
    have covers := (rtaAlign_bounds (rtaLen c)).1
    have whole := chunk.whole
    have header := chunk.header
    rw [List.length_append] at length
    refine ⟨(c ++ cs.flatten) :: headers, ?_⟩
    rw [parseRtattr, rtaLen_append chunk, if_pos, if_pos ⟨chunk.long, by omega⟩, whole,
      List.drop_left, walk]
    · rw [storedOf, ← rtaType_append chunk cs.flatten]
      rfl
    · rw [UInt64.le_iff_toNat_le]
      exact le_trans header (by omega)

theorem rel_or {α β : Type} {r : α → β → Prop} {a a' : Option α} {b b' : Option β}
    (first : Option.Rel r a b) (second : Option.Rel r a' b') :
    Option.Rel r (a.or a') (b.or b') := by
  cases first with
  | some related => exact .some related
  | none => exact second

theorem rel_map {α β γ δ : Type} {r : α → γ → Prop} {r' : α → δ → Prop} {f : β → γ} {g : β → δ}
    {x : Option α} {y : Option β} (rel : Option.Rel r x (y.map f))
    (step : ∀ a b, r a (f b) → r' a (g b)) : Option.Rel r' x (y.map g) := by
  cases y with
  | none =>
    cases rel
    exact .none
  | some b =>
    cases rel with
    | some related => exact .some (step _ b related)

theorem rel_eq_none {α β : Type} {r : α → β → Prop} {x : Option α} {y : Option β}
    (rel : Option.Rel r x y) : x = none ↔ y = none := by
  cases rel with
  | some _ => exact iff_of_false nofun nofun
  | none => exact iff_of_true rfl rfl

theorem lookup_storedOf {sentinel type : ℕ} (known : type < sentinel) (cs : List Bytes) :
    Option.Rel (fun p c => c <+: p) ((storedOf sentinel cs).reverse.lookup type)
      (cs.reverse.find? fun c => rtaType c = type) := by
  induction cs with
  | nil => exact .none
  | cons c cs ih =>
    rw [List.reverse_cons, List.find?_append, storedOf]
    by_cases same : rtaType c = type
    · rw [if_pos (same ▸ known), List.reverse_cons, List.lookup_append, List.find?_singleton,
        decide_eq_true same, if_pos rfl, same, List.lookup_cons_self]
      exact rel_or ih (.some (List.prefix_append c cs.flatten))
    · have other : (type == rtaType c) = false := beq_eq_false_iff_ne.mpr (Ne.symm same)
      have skipped : ((storedOf sentinel (c :: cs)).reverse.lookup type) =
          (storedOf sentinel cs).reverse.lookup type := by
        rw [storedOf]
        split
        · rw [List.reverse_cons, List.lookup_append, List.lookup_cons, other]
          exact Option.or_none
        · rfl
      rw [← storedOf, skipped, List.find?_singleton, decide_eq_false same]
      simpa using ih

end Chunks

structure Done where
  multi : Bool
  seq : ℕ
  pid : UInt32
  payload : Bytes
  padding : Bytes
  short : 16 + payload.length < 2 ^ 16
  padded : 16 + payload.length + padding.length = rtaAlign (16 + payload.length)

def Done.header (d : Done) : Nlmsghdr where
  len := 16 + d.payload.length
  type := nlmsgDone
  multi := d.multi
  seq := d.seq
  pid := d.pid
  least := by omega
  short := d.short
  type_lt := by decide

def Done.bytes (d : Done) : Bytes := d.header.bytes ++ (d.payload ++ d.padding)

theorem rtaAlign_whole {n : ℕ} (whole : 4 ∣ n) : rtaAlign n = n := by
  obtain ⟨k, rfl⟩ := whole
  unfold rtaAlign
  omega

theorem dvd_attributes (as : List Rtattr) : 4 ∣ (as.flatMap Rtattr.bytes).length := by
  induction as with
  | nil => exact dvd_zero 4
  | cons a as ih =>
    rw [List.flatMap_cons, List.length_append, ← a.chunk.whole]
    exact dvd_add (Dvd.intro_left _ rfl) ih

theorem Done.length_bytes (d : Done) : d.bytes.length = rtaAlign d.header.len := by
  simp only [Done.bytes, List.length_append, length_header, Done.header, ← d.padded]
  omega

theorem Done.chunk (d : Done) : Chunk d.bytes := by
  have length : rtaLen d.bytes = d.header.len := rtaLen_header d.header _
  have least := d.header.least
  have covers := (rtaAlign_bounds d.header.len).1
  exact ⟨by rw [d.length_bytes]; omega, by omega, by rw [length, d.length_bytes]⟩

theorem flags_header (h : Nlmsghdr) : UInt32.ofNat h.flags &&& ~~~nlmFMulti = 0 := by
  unfold Nlmsghdr.flags
  cases h.multi <;> decide

theorem nlmsgAlign_eq {n : ℕ} (short : n < 2 ^ 16) : nlmsgAlign n = rtaAlign n := by
  unfold nlmsgAlign rtaAlign
  omega

theorem headed {h : Nlmsghdr} (rest : Bytes) {len : UInt64} (room : h.len ≤ len.toNat) :
    16 ≤ len.toNat ∧ 16 ≤ nlmsgLen (h.bytes ++ rest) ∧ nlmsgLen (h.bytes ++ rest) ≤ len.toNat := by
  have least := h.least
  rw [nlmsgLen_header]
  omega

end Libdank.Netlink

namespace Libdank.Netlink.Dumps
open LittleEndian Requests

/-- Each attribute stored is one of the message's own, with whatever follows it. -/
def Extends (sentinel : ℕ) (tb : ℕ → Option Bytes) (own : ℕ → Option Rtattr) : Prop :=
  ∀ type, 0 < type → type < sentinel → Option.Rel (fun p a => a.bytes <+: p) (tb type) (own type)

def alone (own : ℕ → Option Rtattr) (type : ℕ) : Option Bytes := (own type).map Rtattr.bytes

/-- A kind of message: its type, `NLMSG_LENGTH` of what stands before its attributes, the size of
`tb`, and what is done with a message. Where `Fits` holds, no more is read than the message. -/
structure Dump (σ : Type) where
  type : ℕ
  length : ℕ
  sentinel : ℕ
  handle : Bytes → (ℕ → Option Bytes) → σ → Request (Bool × σ)
  Fits : Bytes → (ℕ → Option Rtattr) → Prop
  type_lt : type < 2 ^ 16
  not_done : type ≠ nlmsgDone
  least : 16 ≤ length
  aligned : 4 ∣ length
  reads : ∀ fixed own, 16 + fixed.length = length → Fits fixed own → ∀ tb, Extends sentinel tb own →
    ∀ rest s, handle (fixed ++ rest) tb s = handle fixed (alone own) s

section Loop
variable {σ : Type} (k : Dump σ)

/-- `while(NLMSG_OK(nlh,len))`, for at most `fuel` tests; -1 is `none`. -/
def decodeMsg (pid : UInt32) : ℕ → ℕ → Bytes → UInt64 → σ → Heap → Option (Option ℕ × σ × Heap)
  | 0, _, _, _, _, _ => none
  | fuel + 1, parts, nlh, len, s, heap =>
    if 16 ≤ len.toNat ∧ 16 ≤ nlmsgLen nlh ∧ nlmsgLen nlh ≤ len.toNat then
      if UInt32.ofNat (nlmsgFlags nlh) &&& ~~~nlmFMulti ≠ 0 then some (none, s, heap)
      else if nlmsgType nlh = nlmsgDone then some (some 0, s, heap)
      else if nlmsgType nlh ≠ k.type then some (none, s, heap)
      else if UInt32.ofNat (nlmsgPid nlh) ≠ pid then some (none, s, heap)
      else
        (parseRtattr k.sentinel fuel (nlh.drop k.length) (len - UInt64.ofNat k.length)).bind fun parsed =>
          if parsed.left ≠ 0 then some (none, s, heap)
          else
            let ((ok, s), heap) := k.handle (nlmsgData nlh) parsed.tb s heap
            if ok then
              decodeMsg pid fuel (parts + 1) (nlh.drop (nlmsgAlign (nlmsgLen nlh)))
                (len - UInt64.ofNat (nlmsgAlign (nlmsgLen nlh))) s heap
            else some (none, s, heap)
    else if len = 0 then some (some parts, s, heap)
    else some (none, s, heap)

end Loop

section Datagrams
variable {σ : Type} {k : Dump σ}

structure Part (k : Dump σ) where
  multi : Bool
  seq : ℕ
  pid : UInt32
  fixed : Bytes
  attributes : List Rtattr
  whole : 16 + fixed.length = k.length
  short : k.length + (attributes.flatMap Rtattr.bytes).length < 2 ^ 16
  fits : k.Fits fixed fun type => attributes.reverse.find? fun a => a.type = type

def Part.own (m : Part k) (type : ℕ) : Option Rtattr := m.attributes.reverse.find? fun a => a.type = type

def Part.header (m : Part k) : Nlmsghdr where
  len := k.length + (m.attributes.flatMap Rtattr.bytes).length
  type := k.type
  multi := m.multi
  seq := m.seq
  pid := m.pid
  least := k.least.trans (Nat.le_add_right _ _)
  short := m.short
  type_lt := k.type_lt

def Part.bytes (m : Part k) : Bytes := m.header.bytes ++ (m.fixed ++ m.attributes.flatMap Rtattr.bytes)

/-- What a message does by what it says itself. -/
def Part.meaning (pid : UInt32) (s : σ) (m : Part k) : Request (Bool × σ) :=
  if m.pid ≠ pid then pure (false, s) else k.handle m.fixed (alone m.own) s

theorem Part.length_bytes (m : Part k) : m.bytes.length = m.header.len := by
  have whole := m.whole
  simp only [Part.bytes, List.length_append, length_header, Part.header]
  omega

theorem Part.chunk (m : Part k) : Chunk m.bytes := by
  have length : rtaLen m.bytes = m.header.len := rtaLen_header m.header _
  have least := m.header.least
  refine ⟨by rw [m.length_bytes]; omega, by omega, ?_⟩
  rw [length, m.length_bytes, rtaAlign_whole]
  exact dvd_add k.aligned (dvd_attributes m.attributes)

/-- What follows a message is not taken for an attribute of it. -/
theorem Part.extends_own (m : Part k) {followers : List Bytes} (zero : ∀ c ∈ followers, rtaType c = 0) :
    Extends k.sentinel
      (fun type => (storedOf k.sentinel (m.attributes.map Rtattr.bytes ++ followers)).reverse.lookup type)
      m.own := by
  intro type pos known
  have behind : followers.reverse.find? (fun c => rtaType c = type) = none := by
    rw [List.find?_eq_none]
    intro c seen
    rw [zero c (List.mem_reverse.mp seen)]
    simpa using pos.ne
  have found := lookup_storedOf known (m.attributes.map Rtattr.bytes ++ followers)
  rw [List.reverse_append, List.find?_append, behind, Option.none_or, ← List.map_reverse, List.find?_map] at found
  have same : ((fun c => decide (rtaType c = type)) ∘ Rtattr.bytes) = fun a => decide (a.type = type) := by
    funext a
    simp only [Function.comp_apply, Rtattr.rtaType_bytes]
  rw [same] at found
  have rel : Option.Rel (fun (p : Bytes) (a : Rtattr) => a.bytes <+: p) _ ((m.own type).map id) :=
    rel_map found fun _ _ start => start
  rwa [Option.map_id_fun, id] at rel

theorem Part.parseRtattr_area (m : Part k) {followers : List Bytes} (chunks : ∀ c ∈ followers, Chunk c)
    {fuel : ℕ} (enough : m.attributes.length + followers.length < fuel) {len : UInt64}
    (length : len.toNat = (m.bytes ++ followers.flatten).length) :
    ∃ headers, parseRtattr k.sentinel fuel ((m.bytes ++ followers.flatten).drop k.length)
        (len - UInt64.ofNat k.length) =
      some ⟨headers, storedOf k.sentinel (m.attributes.map Rtattr.bytes ++ followers), 0⟩ := by
  have shape : m.bytes ++ followers.flatten =
      (m.header.bytes ++ m.fixed) ++ (m.attributes.map Rtattr.bytes ++ followers).flatten := by
    simp [Part.bytes, List.flatMap_def]
  have front : (m.header.bytes ++ m.fixed).length = k.length := by
    rw [List.length_append, length_header, m.whole]
  rw [shape] at length ⊢
  rw [List.drop_left' front]
  apply parseRtattr_chunks
  · rw [List.forall_mem_append]
    refine ⟨fun c seen => ?_, chunks⟩
    obtain ⟨a, -, rfl⟩ := List.mem_map.mp seen
    exact a.chunk
  · rwa [List.length_append, List.length_map]
  · rw [← front]
    exact toNat_rest length

/-- A message that is read with what follows it does what it says itself. -/
theorem decode_part (pid : UInt32) (m : Part k) {followers : List Bytes} (chunks : ∀ c ∈ followers, Chunk c)
    (zero : ∀ c ∈ followers, rtaType c = 0) {fuel : ℕ}
    (enough : m.attributes.length + followers.length < fuel) (parts : ℕ) {len : UInt64}
    (length : len.toNat = (m.bytes ++ followers.flatten).length) (s : σ) (heap : Heap) :
    decodeMsg k pid (fuel + 1) parts (m.bytes ++ followers.flatten) len s heap =
      if (m.meaning pid s heap).1.1 then
        decodeMsg k pid fuel (parts + 1) followers.flatten (len - UInt64.ofNat m.bytes.length)
          (m.meaning pid s heap).1.2 (m.meaning pid s heap).2
      else some (none, (m.meaning pid s heap).1.2, (m.meaning pid s heap).2) := by
  have room : m.header.len ≤ len.toNat := by
    rw [length, List.length_append, m.length_bytes]
    exact Nat.le_add_right _ _
  obtain ⟨headers, walk⟩ := m.parseRtattr_area chunks enough length
  have view : m.bytes ++ followers.flatten =
      m.header.bytes ++ (m.fixed ++ (m.attributes.flatMap Rtattr.bytes ++ followers.flatten)) := by
    simp [Part.bytes]
  have header : nlmsgLen (m.bytes ++ followers.flatten) = m.header.len ∧
      nlmsgType (m.bytes ++ followers.flatten) = k.type ∧
      nlmsgFlags (m.bytes ++ followers.flatten) = m.header.flags ∧
      UInt32.ofNat (nlmsgPid (m.bytes ++ followers.flatten)) = m.pid := by
    rw [view, nlmsgLen_header, nlmsgType_header, nlmsgFlags_header, nlmsgPid_header, UInt32.ofNat_toNat]
    exact ⟨rfl, rfl, rfl, rfl⟩
  have data : nlmsgData (m.bytes ++ followers.flatten) =
      m.fixed ++ (m.attributes.flatMap Rtattr.bytes ++ followers.flatten) := by
    rw [nlmsgData, view, List.drop_left' (length_header _)]
  have next : nlmsgAlign m.header.len = m.bytes.length := by
    rw [nlmsgAlign_eq m.header.short, ← m.chunk.whole]
    exact congrArg rtaAlign (rtaLen_header m.header _).symm
  have ok := headed (m.fixed ++ (m.attributes.flatMap Rtattr.bytes ++ followers.flatten)) room
  rw [← view] at ok
  rw [decodeMsg, if_pos ok, header.2.2.1, flags_header, if_neg (not_not.mpr rfl), header.2.1,
    if_neg k.not_done, if_neg (not_not.mpr rfl), header.2.2.2, walk, Option.bind_some, header.1, next, data,
    List.drop_left]
  by_cases addressed : m.pid = pid
  · have handled := k.reads m.fixed m.own m.whole m.fits _ (m.extends_own zero)
      (m.attributes.flatMap Rtattr.bytes ++ followers.flatten) s
    rw [if_neg (not_not.mpr addressed), if_neg (not_not.mpr rfl), Part.meaning, if_neg (not_not.mpr addressed),
      ← handled]
    rfl
  · have refused : m.meaning pid s = pure (false, s) := if_pos addressed
    rw [if_pos addressed, refused]
    rfl

/-- Messages, and NLMSG_DONE behind them if it is there. -/
structure Datagram (k : Dump σ) where
  messages : List (Part k)
  done : Option Done

def Datagram.chunks (d : Datagram k) : List Bytes :=
  d.messages.map Part.bytes ++ d.done.toList.map Done.bytes

def Datagram.bytes (d : Datagram k) : Bytes := d.chunks.flatten

theorem Datagram.chunk (d : Datagram k) : ∀ c ∈ d.chunks, Chunk c ∧ rtaType c = 0 := by
  intro c seen
  rcases List.mem_append.mp seen with message | done
  · obtain ⟨m, -, rfl⟩ := List.mem_map.mp message
    exact ⟨m.chunk, rtaType_header m.header _⟩
  · obtain ⟨f, -, rfl⟩ := List.mem_map.mp done
    exact ⟨f.chunk, rtaType_header f.header _⟩

def Datagram.parts (d : Datagram k) (parts : ℕ) : ℕ := if d.done.isSome then 0 else parts

def tests (ms : List (Part k)) : ℕ := (ms.map fun m => m.attributes.length + 2).sum + 2

theorem length_lt_tests (ms : List (Part k)) : ms.length + 1 < tests ms := by
  induction ms with
  | nil => exact Nat.one_lt_two
  | cons m ms ih =>
    simp only [tests, List.map_cons, List.sum_cons, List.length_cons] at ih ⊢
    omega

theorem tests_le (ms : List (Part k)) (done : Option Done) :
    tests ms ≤ (Datagram.bytes ⟨ms, done⟩).length + 2 := by
  have own (m : Part k) : m.attributes.length + 2 ≤ m.bytes.length := by
    have attributes : m.attributes.length ≤ (m.attributes.flatMap Rtattr.bytes).length := by
      rw [List.length_flatMap]
      calc m.attributes.length = (m.attributes.map fun _ => 1).sum := by simp
        _ ≤ _ := List.sum_le_sum fun a _ => le_trans (by decide) a.chunk.header
    have least := k.least
    have length : m.bytes.length = k.length + (m.attributes.flatMap Rtattr.bytes).length := m.length_bytes
    omega
  induction ms with
  | nil => exact Nat.le_add_left _ _
  | cons m ms ih =>
    have here := own m
    have front : Datagram.bytes ⟨m :: ms, done⟩ = m.bytes ++ Datagram.bytes ⟨ms, done⟩ := rfl
    rw [front, List.length_append]
    simp only [tests, List.map_cons, List.sum_cons] at ih ⊢
    omega

theorem decode_datagram (pid : UInt32) (done : Option Done) (ms : List (Part k)) :
    ∀ {fuel : ℕ}, tests ms ≤ fuel → ∀ (parts : ℕ) {len : UInt64},
      len.toNat = (Datagram.bytes ⟨ms, done⟩).length → ∀ (s : σ) (heap : Heap),
      decodeMsg k pid fuel parts (Datagram.bytes ⟨ms, done⟩) len s heap =
        some (if (untilFailure (Part.meaning pid) s ms heap).1.1 then
            some (Datagram.parts ⟨ms, done⟩ (parts + ms.length)) else none,
          (untilFailure (Part.meaning pid) s ms heap).1.2, (untilFailure (Part.meaning pid) s ms heap).2) := by
  induction ms with
  | nil =>
    intro fuel enough parts len length s heap
    obtain ⟨fuel, rfl⟩ := Nat.exists_eq_add_one.mpr (lt_of_lt_of_le (Nat.zero_lt_two) enough)
    cases done with
    | none =>
      obtain rfl : len = 0 := UInt64.toNat_inj.mp length
      rfl
    | some f =>
      have alone : Datagram.bytes (k := k) ⟨[], some f⟩ = f.bytes := List.append_nil _
      rw [alone] at length ⊢
      have room : f.header.len ≤ len.toNat := by
        rw [length, f.length_bytes]
        exact (rtaAlign_bounds _).1
      rw [decodeMsg, Done.bytes, if_pos (headed _ room), nlmsgFlags_header, flags_header,
        if_neg (not_not.mpr rfl), nlmsgType_header]
      exact if_pos rfl
  | cons m ms ih =>
    intro fuel enough parts len length s heap
    have step : tests (m :: ms) = m.attributes.length + 2 + tests ms := by
      simp only [tests, List.map_cons, List.sum_cons]
      omega
    obtain ⟨fuel, rfl⟩ := Nat.exists_eq_add_one.mpr (by omega : 0 < fuel)
    have few := length_lt_tests ms
    have followers : (Datagram.chunks ⟨ms, done⟩).length ≤ ms.length + 1 := by
      cases done <;> simp [Datagram.chunks]
    have front : Datagram.bytes ⟨m :: ms, done⟩ = m.bytes ++ (Datagram.chunks ⟨ms, done⟩).flatten := rfl
    have kinds := Datagram.chunk ⟨ms, done⟩
    rw [front] at length ⊢
    rw [decode_part pid m (fun c seen => (kinds c seen).1) (fun c seen => (kinds c seen).2) (by omega) parts
      length s heap, untilFailure_cons]
    by_cases able : (m.meaning pid s heap).1.1 = true
    · rw [if_pos able, if_pos able]
      have rest := ih (by omega : tests ms ≤ fuel) (parts + 1) (toNat_rest length) (m.meaning pid s heap).1.2
        (m.meaning pid s heap).2
      rw [Nat.add_assoc, Nat.add_comm 1] at rest
      exact rest
    · rw [if_neg able, if_neg able]
      rfl

end Datagrams

end Libdank.Netlink.Dumps
