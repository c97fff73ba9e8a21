import Libdank.Foundation.Requests
import Libdank.Foundation.SeparatedRanges

/-! Ranges whose ends are machine numbers of some width, read as spans of
naturals. Neighbours of an end are computed in the numbers themselves, where
they wrap, or in a wider type; one lemma for each comparison serves every width
and either type. -/
namespace Libdank.RangeEnds
open Requests SeparatedRanges

/-- The unsigned numbers of `w` bits, with C's arithmetic. -/
class Word (α : Type) (w : outParam ℕ) [LE α] [LT α] [Add α] [Sub α] [OfNat α 0] [OfNat α 1]
    where
  bits : α → BitVec w
  bits_injective : Function.Injective bits
  bits_zero : bits 0 = 0
  bits_succ : ∀ x, bits (x + 1) = bits x + 1
  bits_pred : ∀ x, bits (x - 1) = bits x - 1
  le_iff : ∀ x y, x ≤ y ↔ bits x ≤ bits y
  lt_iff : ∀ x y, x < y ↔ bits x < bits y

section Words
variable {α : Type} {w : ℕ} [LE α] [LT α] [Add α] [Sub α] [OfNat α 0] [OfNat α 1] [Word α w]

def toNat (x : α) : ℕ := (Word.bits x).toNat

theorem toNat_injective : Function.Injective (toNat : α → ℕ) := fun _ _ same =>
  Word.bits_injective (BitVec.eq_of_toNat_eq same)

theorem toNat_lt (x : α) : toNat x < 2 ^ w := (Word.bits x).isLt

theorem toNat_zero : toNat (0 : α) = 0 := by
  rw [toNat, Word.bits_zero]
  exact BitVec.toNat_zero

theorem le_iff_toNat_le {x y : α} : x ≤ y ↔ toNat x ≤ toNat y := Word.le_iff x y

theorem lt_iff_toNat_lt {x y : α} : x < y ↔ toNat x < toNat y := Word.lt_iff x y

theorem pos_iff {x : α} : 0 < toNat x ↔ x ≠ 0 := by
  rw [Nat.pos_iff_ne_zero, Ne, Ne, ← toNat_zero (α := α), toNat_injective.eq_iff]

theorem room_of_lt (x bound : α) (h : toNat x < toNat bound) : toNat x + 1 < 2 ^ w :=
  lt_of_le_of_lt h (toNat_lt bound)

theorem toNat_succ (x : α) (room : toNat x + 1 < 2 ^ w) : toNat (x + 1) = toNat x + 1 := by
  have one : (1 : BitVec w).toNat = 1 :=
    Nat.mod_eq_of_lt (lt_of_le_of_lt (Nat.le_add_left 1 _) room)
  rw [toNat, Word.bits_succ, BitVec.toNat_add_of_lt (by rwa [one]), one]
  rfl

theorem toNat_pred (x : α) (h : 0 < toNat x) : toNat (x - 1) = toNat x - 1 := by
  have one : (1 : BitVec w).toNat = 1 := Nat.mod_eq_of_lt (lt_of_le_of_lt h (toNat_lt x))
  rw [toNat, Word.bits_pred, BitVec.toNat_sub_of_le, one]
  · rfl
  · rw [BitVec.le_def, one]
    exact h

/-- The type `β` in which the neighbours of an end in `α` are computed. They are exact
there as long as they are numbers of `α` again. -/
class Arithmetic (α β : Type) (w : outParam ℕ) [LE α] [LT α] [Add α] [Sub α] [OfNat α 0]
    [OfNat α 1] [Word α w] [LE β] [LT β] [Add β] [Sub β] [OfNat β 1] where
  wide : α → β
  wide_le : ∀ x y, wide x ≤ wide y ↔ x ≤ y
  wide_lt : ∀ x y, wide x < wide y ↔ x < y
  wide_succ : ∀ x, toNat x + 1 < 2 ^ w → wide (x + 1) = wide x + 1
  wide_pred : ∀ x, 0 < toNat x → wide (x - 1) = wide x - 1

instance wrapping : Arithmetic α α w where
  wide := id
  wide_le _ _ := Iff.rfl
  wide_lt _ _ := Iff.rfl
  wide_succ _ _ := rfl
  wide_pred _ _ := rfl

instance promoted : Arithmetic α ℤ w where
  wide x := toNat x
  wide_le _ _ := Int.ofNat_le.trans le_iff_toNat_le.symm
  wide_lt _ _ := Int.ofNat_lt.trans lt_iff_toNat_lt.symm
  wide_succ x room := by
    rw [toNat_succ _ room]
    exact Nat.cast_succ _
  wide_pred x pos := by
    rw [toNat_pred _ pos]
    omega

section Comparisons
variable {β : Type} [LE β] [LT β] [Add β] [Sub β] [OfNat β 1] [Arithmetic α β w]
open Arithmetic

theorem wide_le_succ (lower : α) {upper : α} (room : toNat upper + 1 < 2 ^ w) :
    (wide lower : β) ≤ wide upper + 1 ↔ toNat lower ≤ toNat upper + 1 := by
  rw [← wide_succ _ room, wide_le, le_iff_toNat_le, toNat_succ _ room]

theorem wide_succ_lt {upper : α} (lower : α) (room : toNat upper + 1 < 2 ^ w) :
    (wide upper : β) + 1 < wide lower ↔ toNat upper + 1 < toNat lower := by
  rw [← wide_succ _ room, wide_lt, lt_iff_toNat_lt, toNat_succ _ room]

theorem wide_le_pred (lower : α) {cur : α} (pos : 0 < toNat cur) :
    (wide lower : β) ≤ wide cur - 1 ↔ toNat lower < toNat cur := by
  rw [← wide_pred _ pos, wide_le, le_iff_toNat_le, toNat_pred _ pos]
  omega

theorem wide_lt_pred (upper : α) {lower : α} (pos : 0 < toNat lower) :
    (wide upper : β) < wide lower - 1 ↔ toNat upper + 1 < toNat lower := by
  rw [← wide_pred _ pos, wide_lt, lt_iff_toNat_lt, toNat_pred _ pos]
  omega

theorem last_iff {upper top : α} (last : toNat top + 1 = 2 ^ w) :
    toNat upper + 1 < 2 ^ w ↔ upper ≠ top := by
  have bound := toNat_lt upper
  rw [← last, Ne, ← toNat_injective.eq_iff]
  omega

theorem reaches_iff (lower upper : α) {top : α} (last : toNat top + 1 = 2 ^ w) :
    (wide lower : β) ≤ wide upper + 1 ∨ upper = top ↔ toNat lower ≤ toNat upper + 1 := by
  by_cases room : toNat upper + 1 < 2 ^ w
  · rw [wide_le_succ lower room, or_iff_left ((last_iff last).mp room)]
  · have bound := toNat_lt lower
    exact iff_of_true (.inr (not_not.mp (mt (last_iff last).mpr room))) (by omega)

theorem below_iff (upper lower : α) {top : α} (last : toNat top + 1 = 2 ^ w) :
    (wide upper : β) + 1 < wide lower ∧ upper ≠ top ↔ toNat upper + 1 < toNat lower := by
  rw [← last_iff last]
  constructor
  · rintro ⟨below, room⟩
    exact (wide_succ_lt lower room).mp below
  · intro below
    have room := below.trans (toNat_lt lower)
    exact ⟨(wide_succ_lt lower room).mpr below, room⟩

theorem grows_iff (lower cur : α) :
    (wide lower : β) ≤ wide cur - 1 ∧ cur ≠ 0 ↔ toNat lower < toNat cur := by
  rw [← pos_iff]
  constructor
  · rintro ⟨grows, pos⟩
    exact (wide_le_pred lower pos).mp grows
  · intro grows
    have pos := Nat.zero_lt_of_lt grows
    exact ⟨(wide_le_pred lower pos).mpr grows, pos⟩

theorem gap_iff (upper lower : α) :
    (wide upper : β) < wide lower - 1 ∧ lower ≠ 0 ↔ toNat upper + 1 < toNat lower := by
  rw [← pos_iff]
  constructor
  · rintro ⟨gap, pos⟩
    exact (wide_lt_pred upper pos).mp gap
  · intro gap
    have pos := Nat.zero_lt_of_lt gap
    exact ⟨(wide_lt_pred upper pos).mpr gap, pos⟩

end Comparisons

end Words

/-- Ranges with both ends in `α`. -/
class Range (ρ : Type) (α : outParam Type) where
  lower : ρ → α
  upper : ρ → α
  ext : ∀ {r s : ρ}, lower r = lower s → upper r = upper s → r = s

section Ranges
variable {ρ α : Type} {w : ℕ} [LE α] [LT α] [Add α] [Sub α] [OfNat α 0] [OfNat α 1] [Word α w]
  [Range ρ α]
open Range

def span (r : ρ) : Span := ⟨toNat (lower r), toNat (upper r)⟩

theorem span_injective : Function.Injective (span : ρ → Span) := fun _ _ same =>
  ext (toNat_injective (congrArg Span.lo same)) (toNat_injective (congrArg Span.hi same))

theorem separated_iff (rs : List ρ) :
    Separated (rs.map span) ↔ (∀ r ∈ rs, lower r ≤ upper r) ∧
      rs.Pairwise fun r s => toNat (upper r : α) + 1 < toNat (lower s : α) := by
  constructor
  · rintro ⟨ordered, apart⟩
    exact ⟨fun r hr => le_iff_toNat_le.mpr (ordered _ (List.mem_map_of_mem hr)),
      List.pairwise_map.mp apart⟩
  · rintro ⟨ordered, apart⟩
    refine ⟨fun s hs => ?_, List.pairwise_map.mpr apart⟩
    obtain ⟨r, hr, rfl⟩ := List.mem_map.mp hs
    exact le_iff_toNat_le.mp (ordered r hr)

theorem mem_span {r : ρ} {x : α} : lower r ≤ x ∧ x ≤ upper r ↔ toNat x ∈ (span r).points :=
  and_congr le_iff_toNat_le le_iff_toNat_le

theorem mem_spans {rs : List ρ} {x : α} :
    (∃ r ∈ rs, lower r ≤ x ∧ x ≤ upper r) ↔ toNat x ∈ points (rs.map span) := by
  simp only [mem_points, List.mem_map, exists_exists_and_eq_and]
  exact exists_congr fun r => and_congr_right fun _ => mem_span

/-- Sets kept as arrays of ranges; `Sound` is what the arrays of a set must keep. -/
class RangeSet (σ : Type) (ρ : outParam Type) where
  ranges : σ → List ρ
  Sound : σ → Prop

variable {σ : Type} [RangeSet σ ρ]

def spans (i : σ) : List Span := (RangeSet.ranges i).map span

/-- A request that succeeds and leaves a sound set of the given spans. -/
def Becomes (after : List Span) (r : Bool × σ) (h : Heap) : Prop :=
  r.1 = true ∧ spans r.2 = after ∧ RangeSet.Sound r.2 ∧ Served h

theorem Becomes.members {after : List Span} {s : Set α}
    (pts : ∀ x : α, toNat x ∈ points after ↔ x ∈ s) {q : Bool × σ} {h : Heap}
    (becomes : Becomes after q h) :
    {x | ∃ r ∈ RangeSet.ranges q.2, lower r ≤ x ∧ x ≤ upper r} = s := by
  ext x
  rw [Set.mem_ofPred, mem_spans, ← pts, ← becomes.2.1]
  rfl

end Ranges

end Libdank.RangeEnds
