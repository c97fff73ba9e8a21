import Libdank.Netlink.Operations

/-! Where the walk over attributes goes. The length that is left is a word: an attribute that ends
in the area, but whose padding does not, makes it wrap, and the walk goes on behind the area. -/
namespace Libdank.Netlink
open LittleEndian

structure Buffer where
  bytes : Bytes
  small : bytes.length < 2 ^ 63

/-- The walk ends; the headers examined and the attributes stored lie inside the buffer. -/
def Safe (sentinel : ℕ) (p : Bytes) (len : UInt64) : Prop :=
  ∃ fuel parsed, parseRtattr sentinel fuel p len = some parsed ∧
    (∀ rta ∈ parsed.headers, 4 ≤ rta.length) ∧ ∀ a ∈ parsed.stored, rtaLen a.2 ≤ a.2.length

/-- What is left of the area behind a padded attribute, nothing being known any more once its end
has been passed. -/
def remaining (left : Option ℕ) (taken : ℕ) : Option ℕ :=
  left.bind fun n => if taken ≤ n then some (n - taken) else none

def AttributeAt (p : Bytes) (left : Option ℕ) : Prop :=
  4 ≤ rtaLen p ∧ ∀ n ∈ left, rtaLen p ≤ n

/-- The bytes at `p` hold the attributes of the area of which `left` is left, and once its end has
been passed all that follow up to a header too short to be one. -/
inductive Contained (sentinel : ℕ) : Bytes → Option ℕ → Prop
  | ended {p : Bytes} {n : ℕ} (few : n < 4) : Contained sentinel p (some n)
  | closed {p : Bytes} {left : Option ℕ} (more : ∀ n ∈ left, 4 ≤ n) (header : 4 ≤ p.length)
      (none_ : ¬ AttributeAt p left) : Contained sentinel p left
  | step {p : Bytes} {left : Option ℕ} (more : ∀ n ∈ left, 4 ≤ n) (header : 4 ≤ p.length)
      (one : AttributeAt p left) (inside : rtaType p < sentinel → rtaLen p ≤ p.length)
      (rest : Contained sentinel (p.drop (rtaAlign (rtaLen p))) (remaining left (rtaAlign (rtaLen p)))) :
      Contained sentinel p left

/-- The word agrees with what is left. Behind the area it is so large that it does not matter. -/
def Agrees (p : Bytes) (len : UInt64) : Option ℕ → Prop
  | some n => len.toNat = n ∧ p.length < 2 ^ 63
  | none => 4 ≤ len.toNat ∧ (4 ≤ p.length → p.length + 2 ^ 17 ≤ len.toNat)

theorem rtaLen_lt (p : Bytes) : rtaLen p < 2 ^ 16 := peek_lt 2 p

theorem rtaAlign_bounds (len : ℕ) : len ≤ rtaAlign len ∧ rtaAlign len ≤ len + 3 := by
  unfold rtaAlign
  omega

theorem Agrees.enough {p : Bytes} {len : UInt64} {left : Option ℕ} (agrees : Agrees p len left) :
    4 ≤ len ↔ ∀ n ∈ left, 4 ≤ n := by
  rw [UInt64.le_iff_toNat_le]
  cases left with
  | none => exact iff_of_true agrees.1 nofun
  | some n =>
    rw [agrees.1]
    simp

theorem Agrees.attribute_iff {p : Bytes} {len : UInt64} {left : Option ℕ} (header : 4 ≤ p.length)
    (agrees : Agrees p len left) : (4 ≤ rtaLen p ∧ rtaLen p ≤ len.toNat) ↔ AttributeAt p left := by
  refine and_congr_right fun _ => ?_
  cases left with
  | none =>
    have short := rtaLen_lt p
    have large := agrees.2 header
    exact iff_of_true (by omega) nofun
  | some n =>
    rw [agrees.1]
    simp

theorem Agrees.next {p : Bytes} {len : UInt64} {left : Option ℕ} (header : 4 ≤ p.length)
    (agrees : Agrees p len left) (one : AttributeAt p left) :
    Agrees (p.drop (rtaAlign (rtaLen p))) (len - UInt64.ofNat (rtaAlign (rtaLen p)))
      (remaining left (rtaAlign (rtaLen p))) := by
  have short := rtaLen_lt p
  obtain ⟨covers, close⟩ := rtaAlign_bounds (rtaLen p)
  have taken : (UInt64.ofNat (rtaAlign (rtaLen p))).toNat = rtaAlign (rtaLen p) :=
    UInt64.toNat_ofNat_of_lt' (by simp only [UInt64.size]; omega)
  have difference : (len - UInt64.ofNat (rtaAlign (rtaLen p))).toNat =
      (2 ^ 64 - rtaAlign (rtaLen p) + len.toNat) % 2 ^ 64 := by
    rw [UInt64.toNat_sub, taken]
  have word := len.toNat_lt
  cases left with
  | none =>
    have large := agrees.2 header
    refine ⟨by omega, fun long => ?_⟩
    rw [List.length_drop] at long ⊢
    omega
  | some n =>
    obtain ⟨rfl, small⟩ := agrees
    have inside := one.2 _ rfl
    by_cases padded : rtaAlign (rtaLen p) ≤ len.toNat
    · have left : remaining (some len.toNat) (rtaAlign (rtaLen p)) =
          some (len.toNat - rtaAlign (rtaLen p)) := if_pos padded
      rw [left]
      exact ⟨by omega, by rw [List.length_drop]; omega⟩
    · have left : remaining (some len.toNat) (rtaAlign (rtaLen p)) = none := if_neg padded
      rw [left]
      refine ⟨by omega, fun _ => ?_⟩
      rw [List.length_drop]
      omega

theorem safe_ended {sentinel : ℕ} {p : Bytes} {len : UInt64} (few : ¬ 4 ≤ len) :
    Safe sentinel p len :=
  ⟨1, ⟨[], [], len⟩, by rw [parseRtattr, if_neg few], nofun, nofun⟩

theorem safe_closed {sentinel : ℕ} {p : Bytes} {len : UInt64} (more : 4 ≤ len)
    (none_ : ¬ (4 ≤ rtaLen p ∧ rtaLen p ≤ len.toNat)) : Safe sentinel p len ↔ 4 ≤ p.length := by
  constructor
  · rintro ⟨fuel, parsed, walk, headers, -⟩
    cases fuel with
    | zero => cases walk
    | succ fuel =>
      rw [parseRtattr, if_pos more, if_neg none_] at walk
      obtain rfl := Option.some.inj walk
      exact headers p List.mem_cons_self
  · intro header
    refine ⟨1, ⟨[p], [], len⟩, by rw [parseRtattr, if_pos more, if_neg none_], ?_, nofun⟩
    exact fun rta seen => List.mem_singleton.mp seen ▸ header

theorem forall_stored_cons {sentinel : ℕ} {rta : Bytes} {p : Parsed} {q : ℕ × Bytes → Prop} :
    (∀ a ∈ (p.cons sentinel rta).stored, q a) ↔
      (rtaType rta < sentinel → q (rtaType rta, rta)) ∧ ∀ a ∈ p.stored, q a := by
  unfold Parsed.cons
  by_cases known : rtaType rta < sentinel
  · rw [forall_prop_of_true known, ← List.forall_mem_cons, if_pos known]
  · rw [if_neg known, forall_prop_of_false known, true_and]

theorem safe_attribute {sentinel : ℕ} {p : Bytes} {len : UInt64} (more : 4 ≤ len)
    (one : 4 ≤ rtaLen p ∧ rtaLen p ≤ len.toNat) : Safe sentinel p len ↔
      4 ≤ p.length ∧ (rtaType p < sentinel → rtaLen p ≤ p.length) ∧
        Safe sentinel (p.drop (rtaAlign (rtaLen p))) (len - UInt64.ofNat (rtaAlign (rtaLen p))) := by
  constructor
  · rintro ⟨fuel, parsed, walk, headers, stored⟩
    cases fuel with
    | zero => cases walk
    | succ fuel =>
      rw [parseRtattr, if_pos more, if_pos one] at walk
      obtain ⟨rest, walked, rfl⟩ := Option.map_eq_some_iff.mp walk
      obtain ⟨header, headers⟩ := List.forall_mem_cons.mp headers
      obtain ⟨inside, stored⟩ := forall_stored_cons.mp stored
      exact ⟨header, inside, fuel, rest, walked, headers, stored⟩
  · rintro ⟨header, inside, fuel, rest, walk, headers, stored⟩
    refine ⟨fuel + 1, rest.cons sentinel p, ?_, List.forall_mem_cons.mpr ⟨header, headers⟩,
      forall_stored_cons.mpr ⟨inside, stored⟩⟩
    rw [parseRtattr, if_pos more, if_pos one, walk]
    rfl

theorem Contained.header {sentinel : ℕ} {p : Bytes} {left : Option ℕ} (more : ∀ n ∈ left, 4 ≤ n)
    (contained : Contained sentinel p left) : 4 ≤ p.length := by
  cases contained with
  | ended few => exact absurd (more _ rfl) (Nat.not_le.mpr few)
  | closed _ header _ => exact header
  | step _ header _ _ _ => exact header

theorem contained_attribute {sentinel : ℕ} {p : Bytes} {left : Option ℕ} (more : ∀ n ∈ left, 4 ≤ n)
    (header : 4 ≤ p.length) (one : AttributeAt p left) : Contained sentinel p left ↔
      (rtaType p < sentinel → rtaLen p ≤ p.length) ∧
        Contained sentinel (p.drop (rtaAlign (rtaLen p))) (remaining left (rtaAlign (rtaLen p))) := by
  constructor
  · intro contained
    cases contained with
    | ended few => exact absurd (more _ rfl) (Nat.not_le.mpr few)
    | closed _ _ none_ => exact absurd one none_
    | step _ _ _ inside rest => exact ⟨inside, rest⟩
  · rintro ⟨inside, rest⟩
    exact .step more header one inside rest

theorem safe_iff_contained {sentinel : ℕ} (n : ℕ) : ∀ p : Bytes, p.length = n →
    ∀ (len : UInt64) (left : Option ℕ), Agrees p len left →
      (Safe sentinel p len ↔ Contained sentinel p left) := by
  induction n using Nat.strong_induction_on with
  | _ n ih =>
    intro p length len left agrees
    by_cases more : 4 ≤ len
    case neg =>
      refine iff_of_true (safe_ended more) ?_
      rw [agrees.enough] at more
      cases left with
      | none => exact absurd nofun more
      | some m => exact .ended (by simpa using more)
    have enough := agrees.enough.mp more
    by_cases header : 4 ≤ p.length
    case neg =>
      refine iff_of_false (fun safe => header ?_) (fun contained => header (contained.header enough))
      by_cases one : 4 ≤ rtaLen p ∧ rtaLen p ≤ len.toNat
      · exact ((safe_attribute more one).mp safe).1
      · exact (safe_closed more one).mp safe
    by_cases one : AttributeAt p left
    · have covers := (rtaAlign_bounds (rtaLen p)).1
      have shorter : (p.drop (rtaAlign (rtaLen p))).length < n := by
        rw [List.length_drop]
        have := one.1
        omega
      rw [safe_attribute more ((agrees.attribute_iff header).mpr one), and_iff_right header,
        contained_attribute enough header one, ih _ shorter _ rfl _ _ (agrees.next header one)]
    · refine iff_of_true ?_ (.closed enough header one)
      exact (safe_closed more (mt (agrees.attribute_iff header).mp one)).mpr header

/-- The walk is safe where, in plain arithmetic, the buffer holds all that it meets. -/
theorem parseRtattr_safe_iff (sentinel : ℕ) (b : Buffer) (len : UInt64) :
    Safe sentinel b.bytes len ↔ Contained sentinel b.bytes (some len.toNat) :=
  safe_iff_contained _ b.bytes rfl len (some len.toNat) ⟨rfl, b.small⟩

/-- An attribute of five bytes, and nothing behind it: the padding is looked for, and a header
behind that. -/
theorem parseRtattr_unpadded : ¬ Safe 31 [5, 0, 2, 0, 7] 5 := by
  have one : AttributeAt [5, 0, 2, 0, 7] (some 5) := ⟨by decide, by rintro n ⟨⟩; decide⟩
  rw [safe_iff_contained _ _ rfl 5 (some 5) ⟨rfl, by decide⟩,
    contained_attribute (by rintro n ⟨⟩; decide) (by decide) one]
  rintro ⟨-, rest⟩
  have past : remaining (some 5) (rtaAlign (rtaLen [5, 0, 2, 0, 7])) = none := by decide
  rw [past] at rest
  have header : 4 ≤ ([] : Bytes).length := Contained.header (fun n none_ => absurd none_ (Option.not_mem_none n)) rest
  exact absurd header (by decide)

end Libdank.Netlink
