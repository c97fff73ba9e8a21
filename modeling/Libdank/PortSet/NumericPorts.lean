import Libdank.PortSet.Lists
import Libdank.PortSet.Merging

/-! What `parse_portset` makes of a numeric list that it accepts: the set of the
merged ranges, or the rest of the ports, with commas between ranges or not. -/
namespace Libdank.PortSet
open Requests Parse
open IpSet (startsWithKeyword isInverted signedText)

theorem clear_signed (start : Text) : Clear start (signedText start) := by
  have skipped := clear_whitespace start
  rw [signedText]
  split_ifs with inverted
  · have sign : Clear (parseWhitespace start) (parseWhitespace start).tail :=
      clear_tail (of_decide_eq_true inverted) (by decide)
    exact (skipped.trans sign).trans (clear_whitespace _)
  · exact skipped.trans (clear_whitespace _)

def rangesOf (list : Text) (pos : ℕ) : List Portrange := (itemsRead list pos).1.map Item.range

theorem rangesOf_ordered (list : Text) (pos : ℕ) : ∀ r ∈ rangesOf list pos, r.lower ≤ r.upper := by
  induction list, pos using items_induction with
  | none_ buf pos missing => simp [rangesOf, itemsRead_none missing]
  | item buf pos i pr found ih =>
    rw [rangesOf, itemsRead_found found, List.map_cons]
    exact List.forall_mem_cons.mpr ⟨(parsePortrange_spec found).ordered, ih⟩

def mergedOf (list : Text) (pos : ℕ) : Set UInt16 := ports (rangesOf list pos) ∪ swallowedBy (rangesOf list pos)

theorem parseNumericPorts_list (list : Text) (pos : ℕ) :
    Ensures Served (parseNumericPorts list) (fun q h => Served h ∧
      ∀ ps, q.1 = some ps → q.2 = (itemsRead list pos).2 ∧ Holds (mergedOf list pos) ps) := by
  have loop : Ensures Served (numericPortsLoop (list.length + 1) list true initPortset) (fun q h =>
      q.1 = some ((itemsRead list pos).1.all Item.comma, (itemsRead list pos).2) ∧
        Holds (mergedOf list pos) q.2 ∧ Served h) := by
    intro h served
    rw [numericPortsLoop_eq (list.length + 1) list pos true initPortset (Nat.lt_succ_self _) h]
    have merged := mergeAll_holds (rangesOf list pos) (rangesOf_ordered list pos) h served
    obtain ⟨ok, holds⟩ := merged
    rw [rangesOf] at ok
    rw [bind_apply, pure_apply, if_pos ok, Bool.true_and]
    exact ⟨rfl, holds⟩
  refine ensures_bind loop fun q h hq => ?_
  obtain ⟨parsed, tmp⟩ := q
  obtain ⟨rfl, holds, served⟩ := hq
  dsimp only
  split_ifs with need
  · exact ⟨served, fun ps none_ => absurd none_ (by simp [pure_apply])⟩
  · obtain ⟨yes, served'⟩ := @allocate_served sizeofPortset (by decide) h served
    rw [bind_apply, if_pos yes]
    refine ⟨served', fun ps same => ⟨rfl, ?_⟩⟩
    obtain rfl := Option.some.inj same
    exact holds

theorem cutAll_holds (rs : List Portrange) (ordered : ∀ r ∈ rs, r.lower ≤ r.upper) (s : Set UInt16)
    (p : Portset) (holds : Holds s p) :
    Ensures Served (untilFailure cutPortset p rs)
      (fun q h => q.1 = true ∧ Holds (s \ ports rs) q.2 ∧ Served h) := by
  induction rs generalizing s p with
  | nil => exact ensures_pure fun h served => ⟨rfl, by simpa [ports] using holds, served⟩
  | cons r rs ih =>
    refine ensures_bind (change_holds (.cut r) (ordered r (by simp)) s p holds trivial) fun q h hq => ?_
    obtain ⟨ok, p'⟩ := q
    obtain ⟨rfl, holds', served⟩ := hq
    have rest := ih (fun t ht => ordered t (by simp [ht])) _ p' holds' h served
    have both : (Change.cut r).effect s \ ports rs = s \ ports (r :: rs) := by
      ext x
      simp only [Change.effect, Set.mem_sdiff, mem_ports_cons]
      tauto
    rw [both] at rest
    exact rest

theorem invertPortset_holds {initial ps : Portset} (canonical : Canonical initial.ranges) {s : Set UInt16}
    (holds : Holds s ps) :
    Ensures Served (invertPortset initial ps) (fun q h => q.1 = true ∧ Holds sᶜ q.2 ∧ Served h) := by
  have whole : ports initial.ranges ∪ portrangeAll.ports = Set.univ := by
    rw [Set.eq_univ_iff_forall]
    refine fun x => .inr ⟨UInt16.zero_le, ?_⟩
    have fits := x.toNat_lt
    rw [UInt16.le_iff_toNat_le, portrangeAll]
    simp only [UInt16.reduceToNat]
    omega
  have all := merge_holds portrangeAll UInt16.zero_le _ initial ⟨canonical, rfl⟩
    (fun zero => absurd zero (by decide))
  rw [whole] at all
  refine ensures_bind all fun q h hq => ?_
  obtain ⟨ok, p⟩ := q
  obtain ⟨rfl, holds', served⟩ := hq
  rw [Set.compl_eq_univ_sdiff, ← holds.2]
  exact cutAll_holds ps.ranges holds.1.ordered Set.univ p holds' h served

def Numeric (text : Text) : Prop :=
  ¬ startsWithKeyword ['a', 'n', 'y'] (signedText text) = true ∧
    ¬ startsWithKeyword ['n', 'o', 'n', 'e'] (signedText text) = true

instance : DecidablePred Numeric := fun _ => instDecidableAnd

def listPos (text : Text) : ℕ := text.length - (signedText text).length

def listRead (text : Text) : List Item × Text := itemsRead (signedText text) (listPos text)

def listRanges (text : Text) : List Portrange := (listRead text).1.map Item.range

def withNumericPorts (start : Text) (invert : Bool) (ports : Portset) (read : Option Portset × Text) :
    Request (Option ℕ × Portset) :=
  match read.1 with
  | none => pure (none, freePortset ports)
  | some ps =>
    if invert then do
      let (ok, ports) ← invertPortset ports ps
      if ok then closePortset start read.2 ports else pure (none, freePortset ports)
    else closePortset start read.2 ps

theorem parsePortset_numeric {text : Text} (numeric : Numeric text) (initial : Portset) :
    parsePortset text initial =
      parseNumericPorts (signedText text) >>= withNumericPorts text (isInverted text) initial :=
  (if_neg numeric.1).trans (if_neg numeric.2)

theorem closePortset_some {start text : Text} {p result : Portset} {n : ℕ} {h : Heap}
    (closed : (closePortset start text p h).1 = (some n, result)) :
    n = start.length - text.length ∧ result = p := by
  unfold closePortset at closed
  split_ifs at closed
  · cases closed
  · obtain ⟨count, rfl⟩ := Prod.mk.inj closed
    exact ⟨(Option.some.inj count).symm, rfl⟩

theorem parsePortset_list {text : Text} (numeric : Numeric text) {initial result : Portset}
    (canonical : Canonical initial.ranges) {h : Heap} (served : Served h) {n : ℕ}
    (accepted : (parsePortset text initial h).1 = (some n, result)) :
    n = text.length - (listRead text).2.length ∧
      ports result.ranges =
        if isInverted text then (ports (listRanges text) ∪ swallowedBy (listRanges text))ᶜ
        else ports (listRanges text) ∪ swallowedBy (listRanges text) := by
  rw [parsePortset_numeric numeric, bind_apply] at accepted
  obtain ⟨served', read⟩ := parseNumericPorts_list (signedText text) (listPos text) h served
  generalize parseNumericPorts (signedText text) h = q at accepted served' read
  obtain ⟨⟨parsed, rest⟩, h'⟩ := q
  cases parsed with
  | none => cases accepted
  | some ps =>
    obtain ⟨rfl, holds⟩ := read ps rfl
    cases inverted : isInverted text with
    | false =>
      rw [inverted] at accepted
      obtain ⟨rfl, rfl⟩ := closePortset_some accepted
      exact ⟨rfl, holds.2⟩
    | true =>
      rw [inverted] at accepted
      obtain ⟨ok, holds', -⟩ := invertPortset_holds canonical holds h' served'
      have closed : (closePortset text (listRead text).2 (invertPortset initial ps h').1.2
          (invertPortset initial ps h').2).1 = (some n, result) := by
        have same := accepted
        rw [withNumericPorts] at same
        simp only [if_true, bind_apply] at same
        rwa [if_pos ok] at same
      obtain ⟨rfl, rfl⟩ := closePortset_some closed
      exact ⟨rfl, holds'.2⟩

theorem comma_in_list {text : Text} {i : ℕ} (comma : text[i]? = some ',') :
    ∃ j, i = listPos text + j ∧ (signedText text)[j]? = some ',' := by
  obtain ⟨pre, whole, clear⟩ := clear_signed text
  have length : listPos text = pre.length := by
    have := congrArg List.length whole
    rw [List.length_append] at this
    rw [listPos]
    omega
  rcases Nat.lt_or_ge i pre.length with before | behind
  · rw [whole, List.getElem?_append_left before] at comma
    exact absurd (List.mem_of_getElem? comma) clear
  · rw [whole, List.getElem?_append_right behind] at comma
    exact ⟨i - pre.length, by omega, comma⟩

theorem list_comma {text : Text} {j : ℕ} (comma : (signedText text)[j]? = some ',') :
    text[listPos text + j]? = some ',' := by
  rw [← (clear_signed text).drop_eq, List.getElem?_drop] at comma
  exact comma

theorem listRead_length (text : Text) :
    text.length - (listRead text).2.length =
      listPos text + ((signedText text).length - (listRead text).2.length) := by
  have shorter := (clear_signed text).length_le
  have inside := (itemsRead_bounds (signedText text) (listPos text)).1
  rw [listRead, listPos] at *
  omega

/-- Every comma among the first characters stands between two items of the list. -/
def CommasBetween (text : Text) (consumed : ℕ) : Prop :=
  ∀ i < consumed, text[i]? = some ',' →
    (∃ item ∈ (listRead text).1, item.stop = i) ∧ ∃ item ∈ (listRead text).1, item.start = i + 1

def NoneDangling (text : Text) : Prop := ∀ last ∈ (listRead text).1.getLast?, last.comma = false

theorem commasBetween_iff (text : Text) :
    CommasBetween text (text.length - (listRead text).2.length) ↔ NoneDangling text := by
  rw [CommasBetween, listRead_length]
  constructor
  · intro between last hl
    by_contra trailing
    obtain ⟨-, starts, dangling⟩ := itemsRead_bounds (signedText text) (listPos text)
    obtain ⟨end_, past, comma⟩ := dangling last hl (Bool.of_not_eq_false trailing)
    have there := list_comma comma
    rw [Nat.add_sub_cancel' past] at there
    -- no item begins where the reading ends
    obtain ⟨-, item, hi, next⟩ := between last.stop (by rw [listRead]; omega) there
    have := (starts item hi).2
    omega
  · intro none_ i inside comma
    obtain ⟨j, rfl, here⟩ := comma_in_list comma
    obtain ⟨before, item, after, split, stop, trailing, next⟩ :=
      commas_between (signedText text) (listPos text) j (Nat.lt_of_add_lt_add_left inside) here
    have items : (listRead text).1 = before ++ item :: after := split
    refine ⟨⟨item, by simp [items], stop⟩, ?_⟩
    cases after with
    | nil =>
      have last := none_ item (by simp [items])
      exact absurd (trailing.symm.trans last) (by decide)
    | cons item' after => exact ⟨item', by simp [items], next item' rfl⟩

/-- Every comma consumed stands between two ranges, and the set is the union of
the ranges, or the rest of the ports behind a `!`. -/
structure ListExact (text : Text) (consumed : ℕ) (result : Portset) : Prop where
  commas : CommasBetween text consumed
  union : ports result.ranges =
    if isInverted text then (ports (listRanges text))ᶜ else ports (listRanges text)

end Libdank.PortSet
