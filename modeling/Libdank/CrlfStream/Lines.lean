import Libdank.CrlfStream.Operations

/-! Lines that end in CR LF, as segments of a stream. -/
namespace Libdank.CrlfStream

/-- The lines of a stream and what follows the last of them. -/
def splitLines : Bytes → List Bytes × Bytes
  | [] => ([], [])
  | 0x0d :: 0x0a :: rest => ([cr, lf] :: (splitLines rest).1, (splitLines rest).2)
  | c :: rest =>
    match splitLines rest with
    | (line :: lines, last) => ((c :: line) :: lines, last)
    | ([], last) => ([], c :: last)

def CrlfAt (s : Bytes) (i : ℕ) : Prop := s[i]? = some cr ∧ s[i + 1]? = some lf

def Clean (s : Bytes) (n : ℕ) : Prop := ∀ i, i + 1 < n → ¬ CrlfAt s i

/-- A line: its only CR LF is its end. -/
def IsLine (line : Bytes) : Prop := ∃ i, line.length = i + 2 ∧ CrlfAt line i ∧ Clean line (i + 1)

theorem crlfAt_append {s : Bytes} (t : Bytes) {i : ℕ} (inside : i + 1 < s.length) :
    CrlfAt (s ++ t) i ↔ CrlfAt s i := by
  rw [CrlfAt, CrlfAt, List.getElem?_append_left (by omega), List.getElem?_append_left inside]

theorem clean_append {s : Bytes} (t : Bytes) {n : ℕ} (inside : n ≤ s.length) :
    Clean (s ++ t) n ↔ Clean s n :=
  forall_congr' fun i => imp_congr_right fun lt => not_congr (crlfAt_append t (by omega))

theorem clean_one (s : Bytes) : Clean s 1 := fun _ lt => by omega

theorem clean_of_no_cr {s : Bytes} (none_ : cr ∉ s) (n : ℕ) : Clean s n :=
  fun _ _ here => none_ (List.mem_of_getElem? here.1)

theorem crlfAt_cons_succ (c : UInt8) (s : Bytes) (i : ℕ) : CrlfAt (c :: s) (i + 1) ↔ CrlfAt s i := by
  simp [CrlfAt]

theorem Clean.tail {c : UInt8} {s : Bytes} {n : ℕ} (h : Clean (c :: s) (n + 1)) : Clean s n :=
  fun i lt at_ => h (i + 1) (by omega) ((crlfAt_cons_succ c s i).mpr at_)

theorem splitLines_cons {c : UInt8} {rest : Bytes} (apart : ¬ CrlfAt (c :: rest) 0) :
    splitLines (c :: rest) =
      match splitLines rest with
      | (line :: lines, last) => ((c :: line) :: lines, last)
      | ([], last) => ([], c :: last) := by
  rw [splitLines]
  rintro rest' rfl rfl
  exact apart ⟨rfl, rfl⟩

theorem splitLines_clean (s : Bytes) (clean : Clean s s.length) : splitLines s = ([], s) := by
  induction s with
  | nil => rfl
  | cons c rest ih =>
    have apart : ¬ CrlfAt (c :: rest) 0 := by
      cases rest with
      | nil => simp [CrlfAt]
      | cons d rest => exact clean 0 (by simp)
    rw [splitLines_cons apart, ih clean.tail]

theorem splitLines_first (s : Bytes) (i : ℕ) (here : CrlfAt s i) (clean : Clean s (i + 1)) :
    splitLines s =
      (s.take (i + 2) :: (splitLines (s.drop (i + 2))).1, (splitLines (s.drop (i + 2))).2) := by
  induction i generalizing s with
  | zero =>
    match s, here with
    | c :: d :: rest, ⟨first, second⟩ =>
      obtain rfl : c = cr := by simpa using first
      obtain rfl : d = lf := by simpa using second
      rfl
  | succ i ih =>
    match s, here with
    | c :: rest, here =>
      have next := (crlfAt_cons_succ c rest i).mp here
      rw [splitLines_cons (clean 0 (by omega)), ih rest next clean.tail]
      rfl

theorem clean_or_first (s : Bytes) :
    Clean s s.length ∨ ∃ i, CrlfAt s i ∧ Clean s (i + 1) ∧ i + 2 ≤ s.length := by
  classical
  by_cases some_ : ∃ i, CrlfAt s i
  · refine .inr ⟨Nat.find some_, Nat.find_spec some_, fun j lt => Nat.find_min some_ (by omega), ?_⟩
    obtain ⟨inside, -⟩ := List.getElem?_eq_some_iff.mp (Nat.find_spec some_).2
    omega
  · exact .inl fun i _ here => some_ ⟨i, here⟩

theorem splitLines_flatten (s : Bytes) : (splitLines s).1.flatten ++ (splitLines s).2 = s := by
  induction s using splitLines.induct with
  | case1 => rfl
  | case2 rest ih => simpa [splitLines, cr, lf] using ih
  | case3 c rest apart line lines last split ih =>
    rw [split] at ih
    rw [splitLines, split]
    · simpa using ih
    · exact apart
  | case4 c rest apart last split ih =>
    rw [split] at ih
    rw [splitLines, split]
    · simpa using ih
    · exact apart

theorem lines_induction {motive : Bytes → Prop}
    (last : ∀ s, Clean s s.length → motive s)
    (line : ∀ s i, CrlfAt s i → Clean s (i + 1) → i + 2 ≤ s.length →
      motive (s.drop (i + 2)) → motive s) (s : Bytes) : motive s := by
  induction len : s.length using Nat.strongRecOn generalizing s with
  | ind n ih =>
    rcases clean_or_first s with clean | ⟨i, here, clean, inside⟩
    · exact last s clean
    · refine line s i here clean inside (ih (s.drop (i + 2)).length ?_ _ rfl)
      rw [List.length_drop]
      omega

theorem splitLines_isLine (s : Bytes) : ∀ line ∈ (splitLines s).1, IsLine line := by
  induction s using lines_induction with
  | last s clean => simp [splitLines_clean s clean]
  | line s i here clean inside ih =>
    rw [splitLines_first s i here clean]
    rintro line (_ | ⟨_, mem⟩)
    · have whole : s = s.take (i + 2) ++ s.drop (i + 2) := (List.take_append_drop _ s).symm
      have len : (s.take (i + 2)).length = i + 2 := by
        rw [List.length_take]
        omega
      rw [whole] at here clean
      exact ⟨i, len, (crlfAt_append _ (by omega)).mp here, (clean_append _ (by omega)).mp clean⟩
    · exact ih line mem

theorem crlfAt_inside (s : Bytes) (j : ℕ) (at_ : CrlfAt s j) :
    j + 2 ≤ (splitLines s).1.flatten.length := by
  induction s using lines_induction generalizing j with
  | last s clean =>
    obtain ⟨inside, -⟩ := List.getElem?_eq_some_iff.mp at_.2
    exact absurd at_ (clean j inside)
  | line s i here clean inside ih =>
    rw [splitLines_first s i here clean, List.flatten_cons, List.length_append, List.length_take]
    have low : i ≤ j := by
      by_contra lt
      exact clean j (by omega) at_
    rcases lt_or_ge j (i + 2) with near | far
    · have other : j ≠ i + 1 := by
        rintro rfl
        exact absurd (at_.1.symm.trans here.2) (by decide)
      omega
    · have later : CrlfAt (s.drop (i + 2)) (j - (i + 2)) := by
        rw [CrlfAt, List.getElem?_drop, List.getElem?_drop]
        rw [show i + 2 + (j - (i + 2)) = j by omega,
          show i + 2 + (j - (i + 2) + 1) = j + 1 by omega]
        exact at_
      have := ih _ later
      omega

structure Short (s : Bytes) : Prop where
  lines : ∀ line ∈ (splitLines s).1, line.length < maxLineSize
  last : (splitLines s).2.length < maxLineSize

theorem Short.clean_lt {s : Bytes} (short : Short s) {n : ℕ} (clean : Clean s n)
    (inside : n ≤ s.length) : n < maxLineSize := by
  rcases clean_or_first s with none | ⟨i, here, first, fits⟩
  · have := short.last
    rw [splitLines_clean s none] at this
    exact lt_of_le_of_lt inside this
  · have bound := short.lines (s.take (i + 2)) (by simp [splitLines_first s i here first])
    have low : n ≤ i + 1 := by
      by_contra lt
      exact clean i (by omega) here
    rw [List.length_take] at bound
    omega

theorem Short.drop {s : Bytes} (short : Short s) {i : ℕ} (here : CrlfAt s i)
    (clean : Clean s (i + 1)) : Short (s.drop (i + 2)) := by
  have split := splitLines_first s i here clean
  refine ⟨fun line mem => short.lines line ?_, ?_⟩
  · rw [split]
    exact List.mem_cons_of_mem _ mem
  · have := short.last
    rwa [split] at this

end Libdank.CrlfStream
