import Libdank.LineParser.Segments

/-! Lines that are continued on the next: a backslash with nothing but whitespace
between it and a newline. A text is joined by writing spaces over the two, newline by
newline from the left, so that backslashes left over by one newline join the next. -/
namespace Libdank.LineParser

/-- The walk back from a newline, along what stands before it, the last byte first:
over whitespace to a backslash, which becomes a space. -/
def joinBack : Bytes → Option Bytes
  | [] => none
  | c :: done =>
    if c = backslash then some (space :: done)
    else if isspace c ∧ c ≠ newline then (joinBack done).map (c :: ·)
    else none

def joinFrom (done : Bytes) : Bytes → Bytes
  | [] => done.reverse
  | c :: text =>
    if c = newline then
      match joinBack done with
      | some done => joinFrom (space :: done) text
      | none => joinFrom (newline :: done) text
    else joinFrom (c :: done) text

/-- The text with spaces over the backslash and the newline of each continuation. -/
def joined (text : Bytes) : Bytes := joinFrom [] text

/-- A continuation stands at the start of a line: with nothing but whitespace before
its backslash, once the lines before it are joined. -/
def JoinsAtStart (text : Bytes) : Prop :=
  ∃ p, text[p]? = some backslash ∧ (joined text)[p]? = some space ∧
    openLine ((joined text).take p) = []

section Walks

theorem joinBack_blank {c : UInt8} (blank : isspace c = true) : joinBack [c] = none := by
  have other : c ≠ backslash := by
    rintro rfl
    cases blank
  rw [joinBack, if_neg other]
  simp [joinBack]

theorem joinBack_newline (done : Bytes) : joinBack (newline :: done) = none := by
  rw [joinBack, if_neg (by decide)]
  simp

/-- A walk that would stop in what is further to the left is not changed by it. -/
theorem joinBack_append {y : Bytes} (stop : joinBack y = none) (x : Bytes) :
    joinBack (x ++ y) = (joinBack x).map (· ++ y) := by
  induction x with
  | nil => simpa [joinBack] using stop
  | cons c x ih =>
    rw [List.cons_append, joinBack, joinBack, ih]
    split_ifs
    · rfl
    · cases joinBack x <;> rfl
    · rfl

theorem joinFrom_append {y : Bytes} (stop : joinBack y = none) (x text : Bytes) :
    joinFrom (x ++ y) text = y.reverse ++ joinFrom x text := by
  induction text generalizing x with
  | nil => rw [joinFrom, joinFrom, List.reverse_append]
  | cons c text ih =>
    rw [joinFrom, joinFrom, joinBack_append stop]
    split_ifs
    · cases joinBack x with
      | none => exact ih (newline :: x)
      | some done => exact ih (space :: done)
    · exact ih (c :: x)

theorem joined_cons_space {c : UInt8} (blank : isspace c = true) (text : Bytes) :
    joined (c :: text) = c :: joined text := by
  have behind := joinFrom_append (joinBack_blank blank) [] text
  rw [joined, joinFrom]
  split_ifs with ends
  · subst ends
    exact behind
  · exact behind

theorem joinBack_some {done found : Bytes} (walk : joinBack done = some found) :
    ∃ x y, done = x ++ backslash :: y ∧ found = x ++ space :: y := by
  induction done generalizing found with
  | nil => cases walk
  | cons c done ih =>
    rw [joinBack] at walk
    split_ifs at walk with here blank
    · subst here
      exact ⟨[], done, rfl, (Option.some.inj walk).symm⟩
    · obtain ⟨back, further, rfl⟩ := Option.map_eq_some_iff.mp walk
      obtain ⟨x, y, rfl, rfl⟩ := ih further
      exact ⟨c :: x, y, rfl, rfl⟩

def Cell (a b : UInt8) : Prop := b = a ∨ (a = backslash ∨ a = newline) ∧ b = space

theorem cell_refl (a : UInt8) : Cell a a := .inl rfl

theorem Cell.trans {a b c : UInt8} (first : Cell a b) (second : Cell b c) : Cell a c := by
  rcases first with rfl | ⟨changed, rfl⟩
  · exact second
  · rcases second with rfl | ⟨again, -⟩
    · exact .inr ⟨changed, rfl⟩
    · exact absurd again (by decide)

theorem cells_refl (text : Bytes) : List.Forall₂ Cell text text :=
  List.forall₂_same.mpr fun a _ => cell_refl a

theorem cells_trans {x y z : Bytes} (first : List.Forall₂ Cell x y) (second : List.Forall₂ Cell y z) :
    List.Forall₂ Cell x z := by
  induction first generalizing z with
  | nil => exact second
  | cons here _ ih =>
    cases second with
    | cons here' rest => exact .cons (here.trans here') (ih rest)

/-- A joined text differs in backslashes and newlines that have become spaces. -/
theorem joinFrom_cells (done text : Bytes) :
    List.Forall₂ Cell (done.reverse ++ text) (joinFrom done text) := by
  induction text generalizing done with
  | nil =>
    rw [joinFrom, List.append_nil]
    exact cells_refl _
  | cons c text ih =>
    have next (c : UInt8) : done.reverse ++ c :: text = (c :: done).reverse ++ text := by simp
    rw [joinFrom]
    split_ifs with ends
    · subst ends
      cases walk : joinBack done with
      | none =>
        rw [next]
        exact ih _
      | some found =>
        refine cells_trans ?_ (ih _)
        obtain ⟨x, y, rfl, rfl⟩ := joinBack_some walk
        simp only [List.reverse_append, List.reverse_cons, List.append_assoc, List.singleton_append]
        refine List.rel_append (cells_refl _) (.cons (.inr ⟨.inl rfl, rfl⟩) ?_)
        exact List.rel_append (cells_refl _) (.cons (.inr ⟨.inr rfl, rfl⟩) (cells_refl _))
    · rw [next]
      exact ih _

theorem joined_cells (text : Bytes) : List.Forall₂ Cell text (joined text) := joinFrom_cells [] text

theorem joined_live {text : Bytes} (live : 0 ∉ text) : 0 ∉ joined text := by
  have cells := joined_cells text
  generalize joined text = result at cells
  induction cells with
  | nil => exact live
  | cons cell _ ih =>
    rcases List.ne_and_not_mem_of_not_mem_cons live with ⟨here, later⟩
    intro mem
    rcases List.mem_cons.mp mem with same | mem
    · rcases cell with rfl | ⟨-, rfl⟩
      · exact here same
      · cases same
    · exact ih later mem

theorem length_joined (text : Bytes) : (joined text).length = text.length :=
  (joined_cells text).length_eq.symm

end Walks

section Firsts

/-- The first line of a joined text, behind `done`, and what follows its newline. -/
def firstLine (done : Bytes) : Bytes → Bytes × Option Bytes
  | [] => (done.reverse, none)
  | c :: text =>
    if c = newline then
      match joinBack done with
      | some done => firstLine (space :: done) text
      | none => (done.reverse, some text)
    else firstLine (c :: done) text

theorem firstLine_append {x : Bytes} (clean : newline ∉ x) (done text : Bytes) :
    firstLine done (x ++ text) = firstLine (x.reverse ++ done) text := by
  induction x generalizing done with
  | nil => rfl
  | cons c x ih =>
    obtain ⟨other, clean⟩ : newline ≠ c ∧ newline ∉ x := by simpa using clean
    rw [List.cons_append, firstLine, if_neg (Ne.symm other), ih clean]
    simp

theorem firstLine_clean {done text line : Bytes} {rest : Option Bytes} (clean : newline ∉ done)
    (first : firstLine done text = (line, rest)) : newline ∉ line := by
  induction text generalizing done with
  | nil =>
    obtain ⟨rfl, -⟩ := Prod.mk.inj first
    simpa using clean
  | cons c text ih =>
    rw [firstLine] at first
    split_ifs at first with ends
    · cases walk : joinBack done with
      | none =>
        rw [walk] at first
        obtain ⟨rfl, -⟩ := Prod.mk.inj first
        simpa using clean
      | some found =>
        rw [walk] at first
        obtain ⟨x, y, rfl, rfl⟩ := joinBack_some walk
        refine ih (fun mem => clean ?_) first
        simpa [newline, space, backslash] using mem
    · exact ih (by simp [clean, Ne.symm ends]) first

theorem firstLine_none {done text line : Bytes} (first : firstLine done text = (line, none)) :
    joinFrom done text = line := by
  induction text generalizing done with
  | nil => exact (Prod.mk.inj first).1
  | cons c text ih =>
    rw [firstLine] at first
    rw [joinFrom]
    split_ifs at first ⊢ with ends
    · cases walk : joinBack done with
      | none =>
        rw [walk] at first
        cases (Prod.mk.inj first).2
      | some found =>
        rw [walk] at first
        exact ih first
    · exact ih first

/-- The first line ends in no continuation, and the others are joined as they would be
without it. -/
theorem firstLine_some {done text line rest : Bytes} (first : firstLine done text = (line, some rest)) :
    joinFrom done text = line ++ newline :: joined rest ∧ joinBack line.reverse = none ∧
      newline :: rest <:+ text := by
  induction text generalizing done with
  | nil => cases (Prod.mk.inj first).2
  | cons c text ih =>
    rw [firstLine] at first
    rw [joinFrom]
    split_ifs at first ⊢ with ends
    · subst ends
      cases walk : joinBack done with
      | none =>
        rw [walk] at first
        obtain ⟨rfl, rest_⟩ := Prod.mk.inj first
        obtain rfl := Option.some.inj rest_
        rw [List.reverse_reverse]
        refine ⟨?_, walk, List.suffix_rfl⟩
        have behind := joinFrom_append (joinBack_newline done) [] text
        rw [List.nil_append, List.reverse_cons, List.append_assoc] at behind
        exact behind
      | some found =>
        rw [walk] at first
        obtain ⟨all, stop, behind⟩ := ih first
        exact ⟨all, stop, behind.trans (List.suffix_cons _ _)⟩
    · obtain ⟨all, stop, behind⟩ := ih first
      exact ⟨all, stop, behind.trans (List.suffix_cons _ _)⟩

/-- The first line takes the place of what it has been joined from. -/
theorem firstLine_split {text line rest : Bytes} (first : firstLine [] text = (line, some rest)) :
    ∃ before, text = before ++ newline :: rest ∧ before.length = line.length := by
  obtain ⟨all, -, before, split⟩ := firstLine_some first
  refine ⟨before, split.symm, Eq.symm ?_⟩
  have size := length_joined text
  rw [joined, all, ← split] at size
  simpa [length_joined] using size

theorem firstLine_joined {line : Bytes} (clean : newline ∉ line) (stop : joinBack line.reverse = none)
    (rest : Bytes) : firstLine [] (line ++ newline :: rest) = (line, some rest) := by
  rw [firstLine_append clean, List.append_nil, firstLine, if_pos rfl, stop, List.reverse_reverse]

theorem firstLine_last {line : Bytes} (clean : newline ∉ line) : firstLine [] line = (line, none) := by
  have whole := firstLine_append clean [] []
  rw [List.append_nil, List.append_nil, firstLine, List.reverse_reverse] at whole
  exact whole

end Firsts

section Starts

theorem openLine_behind {a : Bytes} (shut : openLine a = []) (b : Bytes) :
    openLine (a ++ b) = openLine b := by
  by_cases mem : newline ∈ b
  · exact openLine_append_of_newline mem
  · rw [openLine_append mem shut, ← openLine_append mem (show openLine [] = [] from rfl), List.nil_append]

theorem joinsAtStart_cons_space {c : UInt8} (blank : isspace c = true) (text : Bytes) :
    JoinsAtStart (c :: text) ↔ JoinsAtStart text := by
  have shut : openLine [c] = [] :=
    @openLine_append_space [] [c] (List.forall_mem_singleton.mpr blank) rfl
  have same (p : ℕ) : openLine ((c :: joined text).take (p + 1)) = openLine ((joined text).take p) :=
    openLine_behind shut _
  rw [JoinsAtStart, joined_cons_space blank]
  constructor
  · rintro ⟨_ | p, here, there, start⟩
    · obtain rfl : c = backslash := Option.some.inj here
      cases blank
    · exact ⟨p, here, there, (same p).symm.trans start⟩
  · rintro ⟨p, here, there, start⟩
    exact ⟨p + 1, here, there, (same p).trans start⟩

theorem joined_blank {blank : Bytes} (all : ∀ c ∈ blank, isspace c = true) (text : Bytes) :
    joined (blank ++ text) = blank ++ joined text ∧
      (JoinsAtStart (blank ++ text) ↔ JoinsAtStart text) := by
  induction blank with
  | nil => exact ⟨rfl, Iff.rfl⟩
  | cons c blank ih =>
    obtain ⟨here, rest⟩ := List.forall_mem_cons.mp all
    obtain ⟨same, starts⟩ := ih rest
    rw [List.cons_append, joined_cons_space here, same]
    exact ⟨rfl, (joinsAtStart_cons_space here _).trans starts⟩

/-- The first byte of a line is either kept or the backslash of a continuation. -/
theorem joined_head {text : Bytes} {c : UInt8} (head : text.head? = some c) (solid : isspace c = false) :
    (joined text).head? = some c ∨ c = backslash ∧ (joined text).head? = some space := by
  have cells := joined_cells text
  cases text with
  | nil => cases head
  | cons d text =>
    obtain rfl : d = c := Option.some.inj head
    obtain ⟨b, rest, cell, -, same⟩ := List.forall₂_cons_left_iff.mp cells
    rw [same, List.head?_cons]
    rcases cell with rfl | ⟨rfl | rfl, rfl⟩
    · exact .inl rfl
    · exact .inr ⟨rfl, rfl⟩
    · cases solid

theorem start_eq_zero {line : Bytes} {c : UInt8} {p : ℕ} (clean : newline ∉ line)
    (head : line.head? = some c) (solid : isspace c = false) (start : openLine (line.take p) = []) :
    p = 0 := by
  cases line with
  | nil => cases head
  | cons d line =>
    obtain rfl : d = c := Option.some.inj head
    cases p with
    | zero => rfl
    | succ p =>
      have open_ := @openLine_append [] ((d :: line).take (p + 1))
        (fun mem => clean (List.mem_of_mem_take mem)) rfl
      rw [List.nil_append, start, List.take_succ_cons, trim_of_head _ solid] at open_
      cases open_

theorem joinsAtStart_of_head {text : Bytes} {c : UInt8} (head : text.head? = some c)
    (solid : isspace c = false) (spaced : (joined text).head? = some space) : JoinsAtStart text := by
  rcases joined_head head solid with kept | ⟨rfl, -⟩
  · obtain rfl := Option.some.inj (kept.symm.trans spaced)
    cases solid
  · rw [List.head?_eq_getElem?] at head spaced
    exact ⟨0, head, spaced, rfl⟩

theorem head_of_joinsAtStart {text front : Bytes} {c : UInt8} {p : ℕ} (head : text.head? = some c)
    (solid : isspace c = false) (clean : newline ∉ front) (same : (joined text).head? = front.head?)
    (there : front[p]? = some space) (start : openLine (front.take p) = []) :
    front.head? = some space := by
  rcases joined_head head solid with kept | ⟨-, spaced⟩
  · obtain rfl := start_eq_zero clean (same.symm.trans kept) solid start
    rwa [← List.head?_eq_getElem?] at there
  · exact same.symm.trans spaced

theorem firstLine_head {text line : Bytes} {rest : Option Bytes} {c : UInt8}
    (head : text.head? = some c) (solid : isspace c = false)
    (first : firstLine [] text = (line, rest)) : line ≠ [] ∧ (joined text).head? = line.head? := by
  cases rest with
  | none =>
    have all : joined text = line := firstLine_none first
    refine ⟨?_, by rw [all]⟩
    rintro rfl
    have size := length_joined text
    rw [all] at size
    rw [List.length_eq_zero_iff.mp size.symm] at head
    cases head
  | some rest =>
    have all : joined text = line ++ newline :: joined rest := (firstLine_some first).1
    obtain ⟨before, split, size⟩ := firstLine_split first
    have some_ : line ≠ [] := by
      rintro rfl
      obtain rfl := List.length_eq_zero_iff.mp size
      obtain rfl : newline = c := by simpa [split] using head
      cases solid
    exact ⟨some_, by rw [all, List.head?_append_of_ne_nil _ some_]⟩

theorem joinsAtStart_none {text line : Bytes} {c : UInt8} (head : text.head? = some c)
    (solid : isspace c = false) (first : firstLine [] text = (line, none)) :
    JoinsAtStart text ↔ line.head? = some space := by
  have all : joined text = line := firstLine_none first
  refine ⟨fun ⟨p, _, there, start⟩ => ?_, fun spaced => joinsAtStart_of_head head solid (all ▸ spaced)⟩
  rw [all] at there start
  exact head_of_joinsAtStart head solid (firstLine_clean (by simp) first) (all ▸ rfl) there start

theorem joinsAtStart_some {text line rest : Bytes} {c : UInt8} (head : text.head? = some c)
    (solid : isspace c = false) (first : firstLine [] text = (line, some rest)) :
    JoinsAtStart text ↔ line.head? = some space ∨ JoinsAtStart rest := by
  have all : joined text = line ++ newline :: joined rest := (firstLine_some first).1
  obtain ⟨before, split, size⟩ := firstLine_split first
  obtain ⟨-, same⟩ := firstLine_head head solid first
  have shut := openLine_concat_newline line
  have later (k : ℕ) : (joined text)[line.length + 1 + k]? = (joined rest)[k]? ∧
      text[line.length + 1 + k]? = rest[k]? ∧
      openLine ((joined text).take (line.length + 1 + k)) = openLine ((joined rest).take k) := by
    have front : (line ++ [newline]).length = line.length + 1 := by simp
    have front' : (before ++ [newline]).length = line.length + 1 := by simp [size]
    rw [all, split, List.append_cons line, List.append_cons before]
    refine ⟨?_, ?_, ?_⟩
    · rw [← front, List.getElem?_append_right (Nat.le_add_right _ _), Nat.add_sub_cancel_left]
    · rw [← front', List.getElem?_append_right (Nat.le_add_right _ _), Nat.add_sub_cancel_left]
    · rw [← front, List.take_length_add_append]
      exact openLine_behind shut _
  constructor
  · rintro ⟨p, here, there, start⟩
    rcases lt_or_ge p line.length with within | beyond
    · rw [all, List.getElem?_append_left within] at there
      rw [all, List.take_append_of_le_length within.le] at start
      exact .inl (head_of_joinsAtStart head solid (firstLine_clean (by simp) first) same there start)
    · obtain ⟨k, rfl⟩ := Nat.exists_eq_add_of_le beyond
      cases k with
      | zero =>
        rw [all, Nat.add_zero, List.getElem?_append_right le_rfl] at there
        simp [newline, space] at there
      | succ k =>
        rw [show line.length + (k + 1) = line.length + 1 + k by omega] at here there start
        obtain ⟨cell, cell', opens⟩ := later k
        exact .inr ⟨k, cell'.symm.trans here, cell.symm.trans there, opens.symm.trans start⟩
  · rintro (spaced | ⟨k, here, there, start⟩)
    · exact joinsAtStart_of_head head solid (same.trans spaced)
    · obtain ⟨cell, cell', opens⟩ := later k
      exact ⟨line.length + 1 + k, cell'.trans here, cell.trans there, opens.trans start⟩

end Starts

end Libdank.LineParser
