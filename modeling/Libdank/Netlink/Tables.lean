import Libdank.Foundation.Holdings
import Libdank.Foundation.Transitions

/-! The blocks and sockets of `modules/netlink/netlink.c`: any threads set up the layer and stop it
in any order, and any step of them may fail; `fails` tells which of them do. The table is only touched
with the lock held, but the layer's socket is stored without it. -/
namespace Libdank.Netlink
open Requests Holdings Transitions

inductive Kind where
  | memory | socket
deriving DecidableEq, Repr

abbrev Thing := Item Kind

section Blocks

structure NeighBlocks where
  neighbor : Thing
  netdst : Option Thing
  lldst : Option Thing
deriving DecidableEq, Repr

def NeighBlocks.items (n : NeighBlocks) : List Thing := n.netdst.toList ++ n.lldst.toList ++ [n.neighbor]

structure NicBlocks where
  idx : UInt32
  nic : Thing
  name : Thing
  drvinfo : Option Thing
  neighbors : List NeighBlocks
  routes : List Thing
deriving DecidableEq, Repr

def NicBlocks.items (n : NicBlocks) : List Thing :=
  n.neighbors.flatMap NeighBlocks.items ++ n.routes ++ n.drvinfo.toList ++ [n.name, n.nic]

inductive NeighStep where
  | neighbor | linkaddr | netaddr
deriving DecidableEq, Repr

def copyAddr (len : ℕ) : Holder Kind (Option Thing) :=
  if len = 0 then pure none
  else do
    let copy ← take .memory
    pure (some copy)

/-- With the neighbor, whether `free_neigh` frees a `netdst` that has not been set. -/
def createNeigh (lllen dstlen : ℕ) (fails : NeighStep → Bool) : Holder Kind (Option NeighBlocks × Bool) := do
  if fails .neighbor then pure (none, false)
  else
    let ret ← take .memory
    if lllen ≠ 0 ∧ fails .linkaddr then
      release ret
      pure (none, true)
    else
      let lldst ← copyAddr lllen
      if dstlen ≠ 0 ∧ fails .netaddr then
        releaseAll (NeighBlocks.items ⟨ret, none, lldst⟩)
        pure (none, false)
      else
        let netdst ← copyAddr dstlen
        pure (some ⟨ret, netdst, lldst⟩, false)

inductive TxqlenStep where
  | name | socket | ioctl | bogus | close
deriving DecidableEq, Repr

def getIdxTxqlen (fails : TxqlenStep → Bool) : Holder Kind Bool := do
  if fails .name then pure false
  else if fails .socket then pure false
  else
    let sd ← take .socket
    if fails .ioctl then
      release sd
      pure false
    else if fails .bogus then
      release sd
      pure false
    else
      release sd
      pure (!fails .close)

inductive EthtoolStep where
  | name | socket | ioctl | print
deriving DecidableEq, Repr

/-- What is in `*drvstr` afterwards; the result only goes to the log. -/
def checkEthtoolSupport (fails : EthtoolStep → Bool) : Holder Kind (Option Thing) := do
  if fails .name then pure none
  else if fails .socket then pure none
  else
    let sd ← take .socket
    if fails .ioctl then
      release sd
      pure none
    else if fails .print then
      release sd
      pure none
    else
      let drvstr ← take .memory
      release sd
      pure (some drvstr)

inductive NicStep where
  | txqlen (step : TxqlenStep) | ethtool (step : EthtoolStep) | nic | name
deriving DecidableEq, Repr

def createNic (idx : UInt32) (drvinfo : Option Thing) (fails : NicStep → Bool) :
    Holder Kind (Option NicBlocks) := do
  if fails .nic then pure none
  else
    let ret ← take .memory
    if fails .name then
      release ret
      pure none
    else
      let name ← take .memory
      pure (some ⟨idx, ret, name, drvinfo, [], []⟩)

variable (nics : List NicBlocks)

def addNicLocked (idx : UInt32) (drvinfo : Option Thing) (fails : NicStep → Bool) :
    Holder Kind (Option (List NicBlocks)) := do
  if nics.any fun n => n.idx = idx then pure none
  else
    match ← createNic idx drvinfo fails with
    | none => pure none
    | some n => pure (some (n :: nics))

def drvstrOf (ether : Bool) (fails : EthtoolStep → Bool) : Holder Kind (Option Thing) :=
  if ether then checkEthtoolSupport fails else pure none

def addNic (idx : UInt32) (ether : Bool) (fails : NicStep → Bool) : Holder Kind (Option (List NicBlocks)) := do
  match ← getIdxTxqlen fun step => fails (.txqlen step) with
  | false => pure none
  | true =>
    let drvstr ← drvstrOf ether fun step => fails (.ethtool step)
    match ← addNicLocked nics idx drvstr fails with
    | none =>
      releaseAll drvstr.toList
      pure none
    | some nics => pure (some nics)

def onNic (idx : UInt32) (f : NicBlocks → NicBlocks) : List NicBlocks → List NicBlocks
  | [] => []
  | n :: rest => if n.idx = idx then f n :: rest else n :: onNic idx f rest

def addNeighLocked (idx : UInt32) (lllen dstlen : ℕ) (fails : NeighStep → Bool) :
    Holder Kind (Option (List NicBlocks) × Bool) := do
  if nics.any fun n => n.idx = idx then
    match ← createNeigh lllen dstlen fails with
    | (none, wild) => pure (none, wild)
    | (some neigh, wild) =>
      pure (some (onNic idx (fun n => { n with neighbors := neigh :: n.neighbors }) nics), wild)
  else pure (none, false)

def addRouteLocked (idx : UInt32) (fails : Bool) : Holder Kind (Option (List NicBlocks)) := do
  if nics.any fun n => n.idx = idx then
    if fails then pure none
    else
      let rt ← take .memory
      pure (some (onNic idx (fun n => { n with routes := rt :: n.routes }) nics))
  else pure none

end Blocks

inductive Part where
  | nic (idx : UInt32) (ether : Bool) (fails : NicStep → Bool)
  | neigh (idx : UInt32) (lllen dstlen : ℕ) (fails : NeighStep → Bool)
  | route (idx : UInt32) (fails : Bool)

def Part.add (nics : List NicBlocks) : Part → Holder Kind (Option (List NicBlocks) × Bool)
  | nic idx ether fails => do
    let r ← addNic nics idx ether fails
    pure (r, false)
  | neigh idx lllen dstlen fails => addNeighLocked nics idx lllen dstlen fails
  | route idx fails => do
    let r ← addRouteLocked nics idx fails
    pure (r, false)

inductive Phase where
  | begun
  /-- `Socket` has returned, and what it returned is not stored yet. -/
  | opened (sd : Option Thing)
  | running
  /-- It is at its label `err`. -/
  | failed
deriving DecidableEq, Repr

structure Setup where
  buf : Option Thing
  phase : Phase
deriving DecidableEq, Repr

/-- The thread in `stop_netlink_state` that has the lock, having found `sd` not negative: the buffer it
frees afterwards, and whether it is past `Close(nlstate->sd)`. -/
structure Stopper where
  buf : Option Thing
  closed : Bool
deriving DecidableEq, Repr

/-- `sd` of `singleton_state`. Whether its socket has been closed is only a record. -/
inductive Slot where
  | negative
  | socket (sd : Thing)
  | closed (sd : Thing)
deriving DecidableEq, Repr

def Slot.value : Slot → Option Thing
  | negative => none
  | socket sd | closed sd => some sd

def Slot.ofValue : Option Thing → Slot
  | none => negative
  | some sd => socket sd

def Slot.afterClose : Slot → Slot
  | negative => negative
  | socket sd | closed sd => closed sd

def Slot.items : Slot → List Thing
  | socket sd => [sd]
  | _ => []

/-- `wild` is whether some pointer was freed that had not been set. `abandoned` is only a record of the
sockets that were open when `sd` was overwritten. -/
structure Layer where
  ledger : Ledger Kind
  sd : Slot
  nics : List NicBlocks
  setups : List (ℕ × Setup)
  lock : Option Stopper
  abandoned : List Thing
  wild : Bool
deriving DecidableEq, Repr

def Layer.fresh : Layer := ⟨.empty, .negative, [], [], none, [], false⟩

inductive LayerAction where
  /-- `init_netlink_layer`, up to its `Malloc` -/
  | start (t : ℕ) (fails : Bool)
  | socket (t : ℕ) (fails : Bool)
  /-- `nlstate->sd` is set to what `Socket` returned. -/
  | store (t : ℕ)
  | part (t : ℕ) (p : Part)
  /-- Any of `send_get…_msg` and `recv_get…_msg` fails in itself. -/
  | fail (t : ℕ)
  | finish (t : ℕ)
  /-- `stop_netlink_state`, called at `err`, gets the lock. -/
  | cleanup (t : ℕ)
  /-- And called by `stop_netlink_layer`. -/
  | stop
  /-- `Close(nlstate->sd)` -/
  | close
  /-- `nlstate->sd = -1`, and what follows. -/
  | reset

section Steps
variable (s : Layer) (t : ℕ)

def Layer.enter (u : Setup) : Layer := { s with setups := put t u s.setups }

def Layer.start (fails : Bool) : Layer :=
  if fails then s.enter t ⟨none, .failed⟩
  else
    let bought := take .memory s.ledger
    { s with ledger := bought.2 }.enter t ⟨some bought.1, .begun⟩

def Layer.socket (buf : Option Thing) (fails : Bool) : Layer :=
  if fails then s.enter t ⟨buf, .opened none⟩
  else
    let opened := take .socket s.ledger
    { s with ledger := opened.2 }.enter t ⟨buf, .opened (some opened.1)⟩

def Layer.overwrite (sd : Slot) : Layer := { s with sd := sd, abandoned := s.sd.items ++ s.abandoned }

def Layer.store (buf sd : Option Thing) : Layer :=
  (s.overwrite (.ofValue sd)).enter t ⟨buf, if sd.isNone then .failed else .running⟩

def Layer.part (buf : Option Thing) (p : Part) : Layer :=
  let ((nics, wild), ledger) := p.add s.nics s.ledger
  { s with
    ledger := ledger
    nics := nics.getD s.nics
    wild := s.wild || wild }.enter t ⟨buf, if nics.isNone then .failed else .running⟩

def Layer.stopped (buf : Option Thing) : Layer :=
  { s with
    ledger := (releaseAll (s.nics.flatMap NicBlocks.items ++ buf.toList) s.ledger).2
    nics := []
    lock := none }

def Layer.stop (buf : Option Thing) : Layer :=
  if s.sd.value.isSome then { s with lock := some ⟨buf, false⟩ } else s.stopped buf

def Layer.close (buf : Option Thing) : Layer :=
  { s with
    ledger := (releaseAll s.sd.value.toList s.ledger).2
    sd := s.sd.afterClose
    lock := some ⟨buf, true⟩ }

def Layer.leave : Layer := { s with setups := s.setups.filter fun p => p.1 ≠ t }

def Layer.finish (buf : Option Thing) : Layer :=
  { s with ledger := (releaseAll buf.toList s.ledger).2 }.leave t

def Layer.step : LayerAction → Option Layer
  | .start t fails => if (s.setups.lookup t).isSome then none else some (s.start t fails)
  | .socket t fails =>
    match s.setups.lookup t with
    | some ⟨buf, .begun⟩ => some (s.socket t buf fails)
    | _ => none
  | .store t =>
    match s.setups.lookup t with
    | some ⟨buf, .opened sd⟩ => some (s.store t buf sd)
    | _ => none
  | .part t p =>
    match s.setups.lookup t, s.lock with
    | some ⟨buf, .running⟩, none => some (s.part t buf p)
    | _, _ => none
  | .fail t =>
    match s.setups.lookup t with
    | some ⟨buf, .running⟩ => some (s.enter t ⟨buf, .failed⟩)
    | _ => none
  | .finish t =>
    match s.setups.lookup t with
    | some ⟨buf, .running⟩ => some (s.finish t buf)
    | _ => none
  | .cleanup t =>
    match s.setups.lookup t, s.lock with
    | some ⟨buf, .failed⟩, none => some ((s.leave t).stop buf)
    | _, _ => none
  | .stop => if s.lock.isNone then some (s.stop none) else none
  | .close =>
    match s.lock with
    | some ⟨buf, false⟩ => some (s.close buf)
    | _ => none
  | .reset =>
    match s.lock with
    | some ⟨buf, true⟩ => some ((s.overwrite .negative).stopped buf)
    | _ => none

end Steps

section Added

/-- The link address of the new neighbor cannot be copied. -/
def Part.misfrees (nics : List NicBlocks) : Part → Bool
  | neigh idx lllen _ fails => nics.any (·.idx = idx) && !fails .neighbor && lllen ≠ 0 && fails .linkaddr
  | _ => false

def blocks (nics : List NicBlocks) : Multiset Thing := ↑(nics.flatMap NicBlocks.items)

theorem copyAddr_holds (len : ℕ) : InHand 0 (copyAddr len) fun r left => left = ↑r.toList :=
  inHand_ite (fun _ => inHand_pure rfl) fun _ => inHand_take fun _ _ => inHand_pure rfl

theorem createNeigh_holds (lllen dstlen : ℕ) (fails : NeighStep → Bool) :
    InHand 0 (createNeigh lllen dstlen fails) fun r left =>
      left = r.1.elim 0 (fun n => ↑n.items) ∧ r.2 = (!fails .neighbor && lllen ≠ 0 && fails .linkaddr) := by
  refine inHand_ite (fun failed => inHand_pure ⟨rfl, by simp [failed]⟩) fun made => ?_
  refine inHand_take fun ret _ => ?_
  refine inHand_ite (fun failed => ?_) fun copied => ?_
  · exact inHand_release rfl (inHand_pure ⟨rfl, by simp [made, failed.1, failed.2]⟩)
  have tame : (false : Bool) = (!fails .neighbor && lllen ≠ 0 && fails .linkaddr) := by
    rw [eq_comm, Bool.and_assoc, Bool.and_eq_false_iff]
    exact .inr (by simpa using copied)
  refine inHand_frame (copyAddr_holds lllen) (zero_add _).symm fun lldst left is => ?_
  subst is
  refine inHand_ite (fun _ => ?_) fun _ => ?_
  · refine inHand_releaseAll ?_ (inHand_pure ⟨rfl, tame⟩)
    change _ = (↑(lldst.toList ++ [ret]) : Multiset Thing) + 0
    rw [add_zero, add_zero, ← Multiset.coe_add]
    rfl
  · refine inHand_frame (copyAddr_holds dstlen) (zero_add _).symm fun netdst left is => ?_
    subst is
    refine inHand_pure ⟨?_, tame⟩
    change _ = (↑(netdst.toList ++ lldst.toList ++ [ret]) : Multiset Thing)
    rw [add_zero, ← Multiset.coe_add, ← Multiset.coe_add, add_assoc]
    rfl

theorem getIdxTxqlen_holds (fails : TxqlenStep → Bool) :
    InHand 0 (getIdxTxqlen fails) fun _ left => left = 0 := by
  refine inHand_ite (fun _ => inHand_pure rfl) fun _ => ?_
  refine inHand_ite (fun _ => inHand_pure rfl) fun _ => inHand_take fun sd _ => ?_
  refine inHand_ite (fun _ => inHand_release rfl (inHand_pure rfl)) fun _ => ?_
  exact inHand_ite (fun _ => inHand_release rfl (inHand_pure rfl)) fun _ =>
    inHand_release rfl (inHand_pure rfl)

theorem checkEthtoolSupport_holds (fails : EthtoolStep → Bool) :
    InHand 0 (checkEthtoolSupport fails) fun r left => left = ↑r.toList := by
  refine inHand_ite (fun _ => inHand_pure rfl) fun _ => ?_
  refine inHand_ite (fun _ => inHand_pure rfl) fun _ => inHand_take fun sd _ => ?_
  refine inHand_ite (fun _ => inHand_release rfl (inHand_pure rfl)) fun _ => ?_
  refine inHand_ite (fun _ => inHand_release rfl (inHand_pure rfl)) fun _ => inHand_take fun drvstr _ => ?_
  refine inHand_release (?_ : _ = _ + {drvstr}) (inHand_pure rfl)
  rw [add_zero, add_comm]

theorem drvstrOf_holds (ether : Bool) (fails : EthtoolStep → Bool) :
    InHand 0 (drvstrOf ether fails) fun r left => left = ↑r.toList :=
  inHand_ite (fun _ => checkEthtoolSupport_holds fails) fun _ => inHand_pure rfl

theorem createNic_holds (idx : UInt32) (drvinfo : Option Thing) (fails : NicStep → Bool) :
    InHand ↑drvinfo.toList (createNic idx drvinfo fails) fun r left =>
      left = r.elim ↑drvinfo.toList (fun n => ↑n.items) ∧ ∀ n ∈ r, n.idx = idx := by
  refine inHand_ite (fun _ => inHand_pure ⟨rfl, nofun⟩) fun _ => inHand_take fun ret _ => ?_
  refine inHand_ite (fun _ => inHand_release rfl (inHand_pure ⟨rfl, nofun⟩)) fun _ => ?_
  refine inHand_take fun name _ => inHand_pure ⟨?_, fun n is => (Option.some.inj is) ▸ rfl⟩
  change _ = ((([] ++ [] ++ drvinfo.toList ++ [name, ret] : List Thing)) : Multiset Thing)
  rw [List.nil_append, List.nil_append, ← Multiset.coe_add]
  change _ = ↑drvinfo.toList + (({name} : Multiset Thing) + {ret})
  abel

variable {nics : List NicBlocks}

theorem blocks_onNic {idx : UInt32} {f : NicBlocks → NicBlocks} {new : Multiset Thing}
    (adds : ∀ n : NicBlocks, (↑(f n).items : Multiset Thing) = new + ↑n.items)
    (there : nics.any fun n => n.idx = idx) : blocks (onNic idx f nics) = new + blocks nics := by
  have cons (n : NicBlocks) (rest : List NicBlocks) : blocks (n :: rest) = ↑n.items + blocks rest := by
    rw [blocks, List.flatMap_cons, ← Multiset.coe_add, blocks]
  induction nics with
  | nil => cases there
  | cons n rest ih =>
    rw [onNic]
    split_ifs with here
    · rw [cons, cons, adds, add_assoc]
    · rw [List.any_cons, decide_eq_false here, Bool.false_or] at there
      rw [cons, cons, ih there]
      abel

theorem idx_onNic {idx : UInt32} {f : NicBlocks → NicBlocks} (same : ∀ n : NicBlocks, (f n).idx = n.idx) :
    (onNic idx f nics).map NicBlocks.idx = nics.map NicBlocks.idx := by
  induction nics with
  | nil => rfl
  | cons n rest ih =>
    rw [onNic]
    split_ifs
    · rw [List.map_cons, same, List.map_cons]
    · rw [List.map_cons, ih, List.map_cons]

/-- What an addition to the table leaves in hand is what is new in it. -/
structure Adds (nics : List NicBlocks) (r : Option (List NicBlocks)) (left : Multiset Thing) : Prop where
  failed : r = none → left = 0
  new : ∀ nics' ∈ r, blocks nics' = left + blocks nics
  distinct : ∀ nics' ∈ r, (nics.map NicBlocks.idx).Nodup → (nics'.map NicBlocks.idx).Nodup

theorem adds_none : Adds nics none 0 := ⟨fun _ => rfl, nofun, nofun⟩

theorem adds_onNic {idx : UInt32} {f : NicBlocks → NicBlocks} {new : Multiset Thing}
    (adds : ∀ n : NicBlocks, (↑(f n).items : Multiset Thing) = new + ↑n.items)
    (same : ∀ n : NicBlocks, (f n).idx = n.idx) (there : nics.any fun n => n.idx = idx) :
    Adds nics (some (onNic idx f nics)) new := by
  refine ⟨nofun, fun nics' is => ?_, fun nics' is distinct => ?_⟩
  · obtain rfl := Option.some.inj is
    exact blocks_onNic adds there
  · obtain rfl := Option.some.inj is
    rwa [idx_onNic same]

theorem addNic_holds (idx : UInt32) (ether : Bool) (fails : NicStep → Bool) :
    InHand 0 (addNic nics idx ether fails) (Adds nics) := by
  refine inHand_bind (getIdxTxqlen_holds _) fun able left is => ?_
  subst is
  cases able with
  | false => exact inHand_pure adds_none
  | true =>
    refine inHand_bind (drvstrOf_holds ether _) fun drvstr left is => ?_
    subst is
    have locked : InHand ↑drvstr.toList (addNicLocked nics idx drvstr fails) fun r left =>
        (r = none → left = ↑drvstr.toList) ∧ (∀ nics' ∈ r, Adds nics r left) := by
      refine inHand_ite (fun _ => inHand_pure ⟨fun _ => rfl, nofun⟩) fun free => ?_
      refine inHand_bind (createNic_holds idx drvstr fails) fun r left ⟨is, index⟩ => ?_
      subst is
      cases r with
      | none => exact inHand_pure ⟨fun _ => rfl, nofun⟩
      | some n =>
        refine inHand_pure ⟨nofun, fun _ _ => ⟨nofun, fun nics' is => ?_, fun nics' is distinct => ?_⟩⟩
        · obtain rfl := Option.some.inj is
          rw [blocks, List.flatMap_cons, ← Multiset.coe_add]
          rfl
        · obtain rfl := Option.some.inj is
          refine List.nodup_cons.mpr ⟨fun mem => free ?_, distinct⟩
          obtain ⟨m, hm, same⟩ := List.mem_map.mp mem
          exact List.any_eq_true.mpr ⟨m, hm, decide_eq_true (same.trans (index n rfl))⟩
    refine inHand_bind locked fun r left ⟨failed, added⟩ => ?_
    cases r with
    | none =>
      have all : left = ↑drvstr.toList + 0 := by rw [failed rfl, add_zero]
      exact inHand_releaseAll all (inHand_pure adds_none)
    | some nics' => exact inHand_pure (added nics' rfl)

theorem addNeighLocked_holds (idx : UInt32) (lllen dstlen : ℕ) (fails : NeighStep → Bool) :
    InHand 0 (addNeighLocked nics idx lllen dstlen fails) fun r left =>
      Adds nics r.1 left ∧ r.2 = Part.misfrees nics (.neigh idx lllen dstlen fails) := by
  refine inHand_ite (fun there => ?_) fun missing => inHand_pure ⟨adds_none, ?_⟩
  · refine inHand_bind (createNeigh_holds lllen dstlen fails) fun r left ⟨is, wild⟩ => ?_
    subst is
    have wild : r.2 = Part.misfrees nics (.neigh idx lllen dstlen fails) := by
      rw [wild, Part.misfrees, there, Bool.true_and]
    obtain ⟨r, w⟩ := r
    cases r with
    | none => exact inHand_pure ⟨adds_none, wild⟩
    | some neigh =>
      refine inHand_pure ⟨adds_onNic (fun n => ?_) (fun _ => rfl) there, wild⟩
      simp only [NicBlocks.items, List.flatMap_cons, ← Multiset.coe_add]
      change _ = (↑neigh.items : Multiset Thing) + _
      abel
  · simp only [Part.misfrees, Bool.eq_false_iff.mpr missing, Bool.false_and]

theorem addRouteLocked_holds (idx : UInt32) (fails : Bool) :
    InHand 0 (addRouteLocked nics idx fails) (Adds nics) := by
  refine inHand_ite (fun there => ?_) fun _ => inHand_pure adds_none
  refine inHand_ite (fun _ => inHand_pure adds_none) fun _ => inHand_take fun rt _ => inHand_pure ?_
  refine adds_onNic (fun n => ?_) (fun _ => rfl) there
  simp only [NicBlocks.items, ← Multiset.cons_coe, ← Multiset.singleton_add, ← Multiset.coe_add]
  abel

theorem add_holds (p : Part) :
    InHand 0 (p.add nics) fun r left => Adds nics r.1 left ∧ r.2 = p.misfrees nics := by
  cases p with
  | nic idx ether fails =>
    exact inHand_bind (addNic_holds idx ether fails) fun r left adds => inHand_pure ⟨adds, rfl⟩
  | neigh idx lllen dstlen fails => exact addNeighLocked_holds idx lllen dstlen fails
  | route idx fails =>
    exact inHand_bind (addRouteLocked_holds idx fails) fun r left adds => inHand_pure ⟨adds, rfl⟩

end Added

/-- A step that neither overwrites an open socket nor frees what has not been set. -/
def Tidy (s : Layer) : LayerAction → Prop
  | .store _ | .reset => s.sd.items = []
  | .part _ p => p.misfrees s.nics = false
  | _ => True

instance decidableTidy (s : Layer) : (a : LayerAction) → Decidable (Tidy s a)
  | .store _ | .reset => inferInstanceAs (Decidable (s.sd.items = []))
  | .part _ p => inferInstanceAs (Decidable (p.misfrees s.nics = false))
  | .start _ _ | .socket _ _ | .fail _ | .finish _ | .cleanup _ | .stop | .close =>
    inferInstanceAs (Decidable True)

variable {s : Layer} {t : ℕ}

section Kept

def Phase.items : Phase → List Thing
  | opened sd => sd.toList
  | _ => []

def Setup.items (u : Setup) : List Thing := u.phase.items ++ u.buf.toList

def Layer.live (s : Layer) : Multiset Thing :=
  ↑s.sd.items + blocks s.nics + shares Setup.items s.setups + ↑(s.lock.elim [] fun w => w.buf.toList) + ↑s.abandoned

/-- With `own` in the hands of the thread whose turn it is. Only the one that resets it sees the layer's
socket closed. -/
structure Settles (own : Multiset Thing) (s : Layer) : Prop where
  parties : (s.setups.map Prod.fst).Nodup
  held : Held (own + s.live) s.ledger
  distinct : (s.nics.map NicBlocks.idx).Nodup
  closing : ∀ sd, s.sd = .closed sd → ∃ buf, s.lock = some ⟨buf, true⟩

def Unharmed (s : Layer) : Prop := s.abandoned = [] ∧ s.wild = false

theorem settles_fresh : Settles 0 .fresh := ⟨List.nodup_nil, held_empty, List.nodup_nil, nofun⟩

variable {own : Multiset Thing}

theorem Settles.take (h : Settles own s) (k : Kind) :
    Settles ({(Holdings.take k s.ledger).1} + own) { s with ledger := (Holdings.take k s.ledger).2 } := by
  refine ⟨h.parties, ?_, h.distinct, h.closing⟩
  have taken := (held_take k s.ledger h.held).2
  rwa [← add_assoc] at taken

theorem Settles.releaseAll {items : List Thing} (h : Settles (↑items + own) s) :
    Settles own { s with ledger := (Holdings.releaseAll items s.ledger).2 } :=
  ⟨h.parties, held_releaseAll items (add_assoc _ _ _) s.ledger h.held, h.distinct, h.closing⟩

theorem Settles.leave (h : Settles 0 s) (t : ℕ) :
    Settles ↑((s.setups.lookup t).elim [] Setup.items) (s.leave t) := by
  refine ⟨parties_others h.parties, ?_, h.distinct, h.closing⟩
  have held := h.held
  rw [zero_add, Layer.live, shares_split Setup.items h.parties t] at held
  change Held _ s.ledger
  convert held using 1
  rw [Layer.live, Layer.leave]
  abel

theorem Settles.turn (h : Settles 0 s) {u : Setup} (mine : s.setups.lookup t = some u) :
    Settles ↑u.items (s.leave t) := by
  have began := h.leave t
  rwa [mine] at began

theorem Settles.enter {u : Setup} (h : Settles ↑u.items (s.leave t)) : Settles 0 (s.enter t u) := by
  refine ⟨?_, ?_, h.distinct, h.closing⟩
  · have parties := @parties_put _ _ _ t u _ h.parties
    rw [put, Layer.leave] at parties
    simp only [List.filter_filter, Bool.and_self] at parties
    exact parties
  · change Held _ (s.leave t).ledger
    convert h.held using 1
    rw [Layer.live, Layer.enter, shares_put, Layer.live, Layer.leave]
    abel

theorem Settles.overwrite {sd : Slot} (h : Settles (↑sd.items + own) s) (fresh : ∀ i, sd ≠ .closed i) :
    Settles own (s.overwrite sd) := by
  refine ⟨h.parties, ?_, h.distinct, fun i is => absurd is (fresh i)⟩
  change Held _ s.ledger
  convert h.held using 1
  simp only [Layer.live, Layer.overwrite, ← Multiset.coe_add]
  abel

theorem unharmed_overwrite (sd : Slot) : Unharmed (s.overwrite sd) ↔ Unharmed s ∧ s.sd.items = [] := by
  rw [Unharmed, Unharmed, Layer.overwrite, List.append_eq_nil_iff]
  tauto

theorem kept_start (h : Settles 0 s) (free : s.setups.lookup t = none) (fails : Bool) :
    Settles 0 (s.start t fails) ∧ (Unharmed (s.start t fails) ↔ Unharmed s ∧ Tidy s (.start t fails)) := by
  have turn := h.leave t
  rw [free, Option.elim_none] at turn
  rw [Layer.start]
  split_ifs
  · refine ⟨Settles.enter ?_, (and_iff_left trivial).symm⟩
    exact turn
  · refine ⟨Settles.enter ?_, (and_iff_left trivial).symm⟩
    exact turn.take .memory

theorem kept_socket (h : Settles 0 s) {buf : Option Thing} (mine : s.setups.lookup t = some ⟨buf, .begun⟩)
    (fails : Bool) : Settles 0 (s.socket t buf fails) ∧
      (Unharmed (s.socket t buf fails) ↔ Unharmed s ∧ Tidy s (.socket t fails)) := by
  have turn := h.turn mine
  rw [Layer.socket]
  split_ifs
  · refine ⟨Settles.enter ?_, (and_iff_left trivial).symm⟩
    exact turn
  · refine ⟨Settles.enter ?_, (and_iff_left trivial).symm⟩
    exact turn.take .socket

theorem kept_store (h : Settles 0 s) {buf sd : Option Thing}
    (mine : s.setups.lookup t = some ⟨buf, .opened sd⟩) :
    Settles 0 (s.store t buf sd) ∧ (Unharmed (s.store t buf sd) ↔ Unharmed s ∧ Tidy s (.store t)) := by
  have turn := h.turn mine
  refine ⟨?_, unharmed_overwrite (.ofValue sd)⟩
  have stored : Settles ↑buf.toList ((s.leave t).overwrite (.ofValue sd)) := by
    cases sd with
    | none => exact ((zero_add (↑buf.toList : Multiset Thing)).symm ▸ turn).overwrite nofun
    | some sd => exact turn.overwrite nofun
  refine Settles.enter ?_
  cases sd <;> exact stored

theorem kept_part (h : Settles 0 s) {buf : Option Thing} (mine : s.setups.lookup t = some ⟨buf, .running⟩)
    (p : Part) : Settles 0 (s.part t buf p) ∧
      (Unharmed (s.part t buf p) ↔ Unharmed s ∧ Tidy s (.part t p)) := by
  have turn := h.turn mine
  obtain ⟨left, ⟨adds, wild⟩, held⟩ := (@add_holds s.nics p).adds turn.held
  rw [Layer.part]
  change Held _ (p.add s.nics s.ledger).2 at held
  change Adds s.nics (p.add s.nics s.ledger).1.1 left at adds
  change (p.add s.nics s.ledger).1.2 = p.misfrees s.nics at wild
  generalize p.add s.nics s.ledger = added at adds wild held
  obtain ⟨⟨nics, wild'⟩, ledger⟩ := added
  simp only at adds wild held ⊢
  refine ⟨Settles.enter ⟨turn.parties, ?_, ?_, h.closing⟩, ?_⟩
  · change Held _ ledger
    convert held using 1
    cases nics with
    | none =>
      rw [adds.failed rfl, zero_add]
      rfl
    | some nics =>
      simp only [Layer.live, Layer.leave, Option.getD_some, adds.new nics rfl]
      change (↑buf.toList : Multiset Thing) + _ = left + (↑buf.toList + _)
      abel
  · cases nics with
    | none => exact h.distinct
    | some nics => exact adds.distinct nics rfl h.distinct
  · rw [Unharmed, Unharmed, Tidy, ← wild, Layer.enter, Bool.or_eq_false_iff, and_assoc]

theorem Settles.stopped {buf : Option Thing} (h : Settles ↑buf.toList s) (free : s.lock = none) :
    Settles 0 (s.stopped buf) := by
  refine ⟨h.parties, held_releaseAll _ ?_ _ h.held, List.nodup_nil, fun sd is => ?_⟩
  · simp only [Layer.live, Layer.stopped, blocks, free, List.flatMap_nil, Multiset.coe_nil, ← Multiset.coe_add]
    abel
  · obtain ⟨_, locked⟩ := h.closing sd is
    rw [free] at locked
    cases locked

theorem Settles.stop {buf : Option Thing} (h : Settles ↑buf.toList s) (free : s.lock = none) :
    Settles 0 (s.stop buf) := by
  rw [Layer.stop]
  split_ifs
  · refine ⟨h.parties, ?_, h.distinct, fun sd is => ?_⟩
    · convert h.held using 1
      simp only [Layer.live, free, Option.elim_none, Option.elim_some, Multiset.coe_nil]
      abel
    · obtain ⟨_, locked⟩ := h.closing sd is
      rw [free] at locked
      cases locked
  · exact h.stopped free

theorem unharmed_stop {buf : Option Thing} : Unharmed (s.stop buf) ↔ Unharmed s := by
  rw [Layer.stop]
  split_ifs <;> exact Iff.rfl

theorem kept_close (h : Settles 0 s) {buf : Option Thing} (locked : s.lock = some ⟨buf, false⟩) :
    Settles 0 (s.close buf) := by
  have open_ : s.sd.items = s.sd.value.toList := by
    cases slot : s.sd with
    | negative => rfl
    | socket sd => rfl
    | closed sd =>
      obtain ⟨_, closed⟩ := h.closing sd slot
      rw [locked] at closed
      cases closed
  have shut : s.sd.afterClose.items = [] := by cases s.sd <;> rfl
  have same : s.live = ↑s.sd.value.toList + (s.close buf).live := by
    simp only [Layer.live, Layer.close, open_, shut, locked, Option.elim_some, Multiset.coe_nil]
    abel
  refine ⟨h.parties, held_releaseAll _ ?_ _ h.held, h.distinct, fun _ _ => ⟨buf, rfl⟩⟩
  rw [same, zero_add, zero_add]

theorem kept_reset (h : Settles 0 s) {buf : Option Thing} (locked : s.lock = some ⟨buf, true⟩) :
    Settles 0 ((s.overwrite .negative).stopped buf) := by
  have released : Settles ↑buf.toList { s.overwrite .negative with lock := none } := by
    refine ⟨h.parties, ?_, h.distinct, nofun⟩
    change Held _ s.ledger
    convert h.held using 1
    simp only [Layer.live, Layer.overwrite, locked, Slot.items, ← Multiset.coe_add, Option.elim_none, Option.elim_some,
      Multiset.coe_nil]
    abel
  exact released.stopped rfl

theorem kept_layer {a : LayerAction} {s' : Layer} (h : Settles 0 s) (next : s.step a = some s') :
    Settles 0 s' ∧ (Unharmed s' ↔ Unharmed s ∧ Tidy s a) := by
  cases a with
  | start t fails =>
    simp only [Layer.step] at next
    split_ifs at next with free
    obtain rfl := Option.some.inj next
    exact kept_start h (Option.not_isSome_iff_eq_none.mp free) fails
  | socket t fails =>
    simp only [Layer.step] at next
    split at next
    · rename_i buf mine
      obtain rfl := Option.some.inj next
      exact kept_socket h mine fails
    · cases next
  | store t =>
    simp only [Layer.step] at next
    split at next
    · rename_i buf sd mine
      obtain rfl := Option.some.inj next
      exact kept_store h mine
    · cases next
  | part t p =>
    simp only [Layer.step] at next
    split at next
    · rename_i buf mine free
      obtain rfl := Option.some.inj next
      exact kept_part h mine p
    · cases next
  | fail t =>
    simp only [Layer.step] at next
    split at next
    · rename_i buf mine
      obtain rfl := Option.some.inj next
      have turn := h.turn mine
      refine ⟨Settles.enter ?_, (and_iff_left trivial).symm⟩
      exact turn
    · cases next
  | finish t =>
    simp only [Layer.step] at next
    split at next
    · rename_i buf mine
      obtain rfl := Option.some.inj next
      have turn := h.turn mine
      have mine : Settles (↑buf.toList + 0) (s.leave t) := (add_zero (↑buf.toList : Multiset Thing)).symm ▸ turn
      exact ⟨mine.releaseAll, (and_iff_left trivial).symm⟩
    · cases next
  | cleanup t =>
    simp only [Layer.step] at next
    split at next
    · rename_i buf mine free
      obtain rfl := Option.some.inj next
      exact ⟨(h.turn mine).stop free, unharmed_stop.trans (and_iff_left trivial).symm⟩
    · cases next
  | stop =>
    simp only [Layer.step] at next
    split_ifs at next with free
    obtain rfl := Option.some.inj next
    have mine : Settles ↑(none : Option Thing).toList s := h
    exact ⟨mine.stop (Option.isNone_iff_eq_none.mp free), unharmed_stop.trans (and_iff_left trivial).symm⟩
  | close =>
    simp only [Layer.step] at next
    split at next
    · rename_i buf locked
      obtain rfl := Option.some.inj next
      exact ⟨kept_close h locked, (and_iff_left trivial).symm⟩
    · cases next
  | reset =>
    simp only [Layer.step] at next
    split at next
    · rename_i buf locked
      obtain rfl := Option.some.inj next
      exact ⟨kept_reset h locked, unharmed_overwrite .negative⟩
    · cases next

end Kept

/-- In every run, whatever the order in which threads set up the layer and stop it and whatever
fails, each block and socket that was taken has been given back once, unless it is still in exactly
one place: the layer's socket, the table, a thread that sets the layer up or stops it, or the record of the
sockets that were lost. No two NICs of the table have the same index. Once each thread is done and
the layer has been stopped, everything has been given back and no unset pointer has been freed
just when each step was tidy. -/
theorem tables_settle {actions : List LayerAction} {s : Layer}
    (ran : run Layer.step .fresh actions = some s) :
    (∀ i ∈ s.ledger.given, s.ledger.released.count i = if i ∈ s.live then 0 else 1) ∧ s.live.Nodup ∧
      (s.nics.map NicBlocks.idx).Nodup ∧
      (s.sd = .negative → s.nics = [] → s.setups = [] → s.lock = none →
        ((∀ i ∈ s.ledger.given, s.ledger.released.count i = 1) ∧ s.wild = false ↔
          Along Layer.step Tidy .fresh actions)) := by
  have settled : Settles 0 s := run_invariant (fun _ _ _ h next => (kept_layer h next).1) settles_fresh ran
  have held : Held s.live s.ledger := zero_add s.live ▸ settled.held
  refine ⟨fun i given => held.count_released given, held.nodup, settled.distinct, ?_⟩
  intro closed freed done unlocked
  have tidy := run_good_iff (fun _ _ _ h next => kept_layer h next) settles_fresh ran
  rw [and_iff_right ⟨rfl, rfl⟩] at tidy
  have live : s.live = ↑s.abandoned := by
    rw [Layer.live, closed, freed, done, unlocked]
    change (0 : Multiset Thing) + 0 + 0 + 0 + _ = _
    rw [add_zero, add_zero, add_zero, zero_add]
  rw [← tidy, Unharmed, held.all_released, live, Multiset.coe_eq_zero]

def setupRun : List LayerAction :=
  [.start 0 false, .socket 0 false, .store 0, .part 0 (.nic 1 true fun _ => false),
    .part 0 (.neigh 1 6 4 fun _ => false), .start 1 true, .cleanup 1, .close, .reset, .part 0 (.route 1 false),
    .cleanup 0]

theorem tables_settle_setup : ∃ s, run Layer.step .fresh setupRun = some s ∧ s.ledger.given.length = 10 ∧
    ∀ i ∈ s.ledger.given, s.ledger.released.count i = 1 := by
  have ran : run Layer.step .fresh setupRun = some ((run Layer.step .fresh setupRun).getD .fresh) := by
    decide +kernel
  refine ⟨_, ran, by decide +kernel, ?_⟩
  exact (((tables_settle ran).2.2.2 (by decide +kernel) (by decide +kernel) (by decide +kernel)
    (by decide +kernel)).mpr (by decide +kernel)).1

/-- A socket that is stored while another thread stops the layer, having closed the one before it. -/
example : (run Layer.step .fresh
    [.start 0 false, .socket 0 false, .store 0, .start 1 false, .socket 1 false, .stop, .close, .store 1,
      .reset]).map (fun s => s.abandoned.length) = some 1 := by
  decide +kernel

end Libdank.Netlink
