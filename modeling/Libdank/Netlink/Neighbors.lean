import Libdank.Netlink.Operations

/-! The link address for a neighbor. The search compares the bytes of the pointer `netdst`, where
it means those of the address that it points at. -/
namespace Libdank.Netlink
open LittleEndian

def entries (nics : List Nic) : List (UInt32 × Neighbor) :=
  nics.flatMap fun n => n.neighbors.map fun nb => (n.idx, nb)

def HasAddress (sAddr : UInt32) (e : UInt32 × Neighbor) : Bool :=
  e.2.netaddr = wire 4 sAddr.toNat

/-- What the code takes for it: an address of four bytes, at a place whose own lowest bytes are
the address. -/
def HasPointer (sAddr : UInt32) (e : UInt32 × Neighbor) : Bool :=
  e.2.netlen = 4 ∧ (wire 8 e.2.netdst.toNat).take 4 = wire 4 sAddr.toNat

def link (e : UInt32 × Neighbor) : Option (UInt32 × Bytes) :=
  if 1 ≤ e.2.lllen ∧ e.2.lllen ≤ sizeofSllAddr then some (e.1, e.2.lldst) else none

def filled (l : UInt32 × Bytes) : SockaddrLl :=
  ⟨l.1, l.2.length, l.2 ++ List.replicate (sizeofSllAddr - l.2.length) 0⟩

/-- The first entry with the address is used, if it can be. -/
def Resolves (nics : List Nic) (sAddr : UInt32) : Prop :=
  setupSockaddrLl nics sAddr = ((entries nics).find? (HasAddress sAddr)).bind fun e => (link e).map filled

theorem filled_injective : Function.Injective filled := by
  rintro ⟨i, a⟩ ⟨j, b⟩ same
  obtain ⟨index, length, bytes⟩ := SockaddrLl.mk.inj same
  obtain ⟨rfl, -⟩ := List.append_inj bytes length
  exact Prod.ext index rfl

theorem tryNeighbor_eq (sAddr idx : UInt32) (nb : Neighbor) : tryNeighbor sAddr idx nb =
    if HasPointer sAddr (idx, nb) then some ((link (idx, nb)).map filled) else none := by
  have whole : (wire 4 sAddr.toNat).take 4 = wire 4 sAddr.toNat := List.take_of_length_le (by simp)
  unfold tryNeighbor HasPointer
  by_cases four : nb.netlen = 4
  case neg => simp [four]
  by_cases same : (wire 8 nb.netdst.toNat).take 4 = wire 4 sAddr.toNat
  case neg => simp [four, whole, same]
  simp only [four, whole, same, ne_eq, not_true, if_false, and_self, decide_true, if_true]
  by_cases usable : 1 ≤ nb.lllen ∧ nb.lllen ≤ sizeofSllAddr
  · rw [link, if_pos usable, if_neg (by omega)]
    rfl
  · rw [link, if_neg usable, if_pos (by omega)]
    rfl

theorem findSome_ite {α β : Type} (p : α → Bool) (f : α → β) (xs : List α) :
    xs.findSome? (fun a => if p a then some (f a) else none) = (xs.find? p).map f := by
  induction xs with
  | nil => rfl
  | cons x xs ih =>
    cases found : p x with
    | true => rw [List.findSome?_cons, List.find?_cons, found]; rfl
    | false => rw [List.findSome?_cons, List.find?_cons, found, ← ih]; rfl

theorem setupSockaddrLl_eq (nics : List Nic) (sAddr : UInt32) : setupSockaddrLl nics sAddr =
    ((entries nics).find? (HasPointer sAddr)).bind fun e => (link e).map filled := by
  have search : (nics.findSome? fun n => n.neighbors.findSome? fun nb => tryNeighbor sAddr n.idx nb) =
      (entries nics).findSome? fun e => tryNeighbor sAddr e.1 e.2 := by
    rw [entries, findSome_flatMap]
    simp only [List.findSome?_map]
    rfl
  rw [setupSockaddrLl, search]
  simp only [tryNeighbor_eq, Prod.mk.eta, findSome_ite]
  cases (entries nics).find? (HasPointer sAddr) <;> rfl

/-- `e` is the first in the order of the table that `p` holds of. -/
def First (p : UInt32 × Neighbor → Bool) (nics : List Nic) (e : UInt32 × Neighbor) : Prop :=
  ∃ before after, entries nics = before ++ e :: after ∧ p e = true ∧ ∀ b ∈ before, p b = false

def Usable (e : UInt32 × Neighbor) : Prop := 1 ≤ e.2.lllen ∧ e.2.lllen ≤ sizeofSllAddr

theorem link_iff {e : UInt32 × Neighbor} {l : UInt32 × Bytes} :
    link e = some l ↔ Usable e ∧ l = (e.1, e.2.lldst) := by
  rw [link, Usable, Option.ite_none_right_eq_some, Option.some_inj, @eq_comm _ l]

theorem first_iff {p : UInt32 × Neighbor → Bool} {nics : List Nic} {e : UInt32 × Neighbor} :
    First p nics e ↔ (entries nics).find? p = some e := by
  rw [First, List.find?_eq_some_iff_append]
  constructor
  · rintro ⟨before, after, split_, holds, others⟩
    exact ⟨holds, before, after, split_, fun b hb => by rw [others b hb]; rfl⟩
  · rintro ⟨holds, before, after, split_, others⟩
    exact ⟨before, after, split_, holds, fun b hb => (Bool.not_eq_true' _).mp (others b hb)⟩

theorem bind_link_iff {p : UInt32 × Neighbor → Bool} {nics : List Nic} {l : UInt32 × Bytes} :
    ((entries nics).find? p).bind link = some l ↔ ∃ e, First p nics e ∧ Usable e ∧ l = (e.1, e.2.lldst) := by
  simp only [Option.bind_eq_some_iff, first_iff, link_iff]

theorem bind_link_none {p : UInt32 × Neighbor → Bool} {nics : List Nic} :
    ((entries nics).find? p).bind link = none ↔ ∀ e, First p nics e → ¬ Usable e := by
  rw [Option.eq_none_iff_forall_ne_some]
  constructor
  · intro none_ e first usable
    exact none_ _ (bind_link_iff.mpr ⟨e, first, usable, rfl⟩)
  · intro unusable l found
    obtain ⟨e, first, usable, -⟩ := bind_link_iff.mp found
    exact unusable e first usable

theorem resolves_iff_links (nics : List Nic) (sAddr : UInt32) : Resolves nics sAddr ↔
    ((entries nics).find? (HasPointer sAddr)).bind link =
      ((entries nics).find? (HasAddress sAddr)).bind link := by
  have out : ∀ e : Option (UInt32 × Neighbor),
      (e.bind fun e => (link e).map filled) = (e.bind link).map filled := by
    intro e
    cases e <;> rfl
  rw [Resolves, setupSockaddrLl_eq, out, out]
  exact (Option.map_injective filled_injective).eq_iff

/-- There are two entries to look at: the first that has the address, and the first whose pointer
holds the bytes of it. The address is resolved where neither is there and can be used, or both are
and have one NIC and one link address. -/
theorem setupSockaddrLl_iff (nics : List Nic) (sAddr : UInt32) : Resolves nics sAddr ↔
    (∀ e, First (HasAddress sAddr) nics e ∨ First (HasPointer sAddr) nics e → ¬ Usable e) ∨
      ∃ e e', First (HasAddress sAddr) nics e ∧ First (HasPointer sAddr) nics e' ∧
        Usable e ∧ Usable e' ∧ e'.1 = e.1 ∧ e'.2.lldst = e.2.lldst := by
  rw [resolves_iff_links]
  constructor
  · intro same
    cases found : ((entries nics).find? (HasAddress sAddr)).bind link with
    | none =>
      rw [found] at same
      exact .inl fun e first => first.elim (bind_link_none.mp found e) (bind_link_none.mp same e)
    | some l =>
      rw [found] at same
      obtain ⟨e, first, usable, rfl⟩ := bind_link_iff.mp found
      obtain ⟨e', first', usable', same⟩ := bind_link_iff.mp same
      exact .inr ⟨e, e', first, first', usable, usable', (Prod.ext_iff.mp same).1.symm,
        (Prod.ext_iff.mp same).2.symm⟩
  · rintro (unusable | ⟨e, e', first, first', usable, usable', index, bytes⟩)
    · rw [bind_link_none.mpr fun e first => unusable e (.inl first),
        bind_link_none.mpr fun e first => unusable e (.inr first)]
    · rw [bind_link_iff.mpr ⟨e, first, usable, rfl⟩]
      exact bind_link_iff.mpr ⟨e', first', usable', Prod.ext index.symm bytes.symm⟩

def gateway : List Nic :=
  [⟨2, [], [⟨0x1000, [192, 168, 0, 1], [0, 1, 2, 3, 4, 5]⟩], 0⟩]

/-- It is not found by its address. -/
theorem setupSockaddrLl_gateway : ¬ Resolves gateway 0x0100a8c0 := by
  unfold Resolves
  decide

end Libdank.Netlink
