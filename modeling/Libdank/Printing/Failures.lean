import Libdank.Printing

/-! Printing where the allocator may refuse: each call that returns has appended all of its
output or left the text as it was. An output whose length no `int` holds is never appended, and
the loop grows the string for as long as it is given memory. -/
namespace Libdank.Printing
open Requests Parse Buffers

/-- What printing comes to from an empty string on, whatever memory there is for each call. -/
inductive Reachable : Ustring → Prop
  | init : Reachable initUstring
  | print {junk : ℕ → Char} {out : Text} {passes : ℕ} {h : Heap} {r : ℤ} {u u' : Ustring}
      (before : Reachable u) (ends : (printLoop junk out passes u h).1 = some (r, u')) : Reachable u'

/-- All of the output was appended, and room is left for the NUL behind it. -/
structure Appended (u : Ustring) (out : Text) (u' : Ustring) : Prop where
  contents : u'.contents = u.contents ++ out
  current : u'.current = u.current + out.length
  room : u'.current < u'.total
  terminated : u'.cells[u'.current]? = some nul

structure Unchanged (u u' : Ustring) : Prop where
  contents : u'.contents = u.contents
  current : u'.current = u.current
  terminated : u'.string = none ∨ u'.cells[u'.current]? = some nul

/-- How a call returns. -/
def Exact (u : Ustring) (out : Text) (q : ℤ × Ustring) : Prop :=
  out.length < 2 ^ 31 ∧ q.1 = out.length ∧ Appended u out q.2 ∨ q.1 = -1 ∧ Unchanged u q.2

structure Ustring.Roomy (u : Ustring) : Prop extends u.Sized where
  start : u.string = none → u.current = 0
  room : u.string ≠ none → u.current < u.total

theorem Ustring.Valid.room {u : Ustring} (valid : u.Valid) : u.string = none ∨ u.current < u.total := by
  refine valid.terminated.imp And.left fun terminated => ?_
  rw [← valid.allocated]
  exact (List.getElem?_eq_some_iff.mp terminated).1

theorem Ustring.Valid.appended {u u' : Ustring} {out : Text} (valid : u'.Valid) (some_ : u'.string ≠ none)
    (contents : u'.contents = u.contents ++ out) (current : u'.current = u.current + out.length) :
    Appended u out u' :=
  ⟨contents, current, valid.room.resolve_left some_, valid.terminated.resolve_left fun h => some_ h.1⟩

theorem terminate_valid {u : Ustring} (roomy : u.Roomy) :
    (terminate u).Valid ∧ Unchanged u (terminate u) := by
  have sized := roomy.toSized
  cases string : u.string with
  | none =>
    have empty : u.total = 0 := by rw [← sized.allocated, Ustring.cells, string]; rfl
    have same : terminate u = u := by
      rw [terminate, if_neg (by rw [empty, roomy.start string]; exact not_not.mpr rfl)]
    rw [same]
    exact ⟨⟨sized, Or.inl ⟨string, roomy.start string⟩⟩, rfl, rfl, Or.inl string⟩
  | some cells =>
    have inside : u.current < u.total := roomy.room (by rw [string]; exact Option.some_ne_none _)
    have shape : terminate u = { u with string := some (overwrite cells u.current [nul]) } := by
      rw [terminate, if_pos (by omega), string]
      rfl
    have allocated : cells.length = u.total := by rw [← sized.allocated, Ustring.cells, string]; rfl
    have front : (cells.take u.current).length = u.current := by
      rw [List.length_take]
      omega
    have terminated : (overwrite cells u.current [nul])[u.current]? = some nul := by
      rw [overwrite, List.append_assoc, List.getElem?_append_right (by omega), front, Nat.sub_self]
      rfl
    have contents : slice (overwrite cells u.current [nul]) 0 u.current = slice cells 0 u.current :=
      slice_overwrite_before _ _ _ (by omega)
    rw [shape]
    refine ⟨⟨⟨?_, inside.le⟩, Or.inr terminated⟩, ?_, rfl, Or.inr terminated⟩
    · change (overwrite cells u.current [nul]).length = u.total
      rw [length_overwrite _ _ _ (by rw [List.length_singleton]; omega), allocated]
    · change slice (overwrite cells u.current [nul]) 0 u.current = slice u.cells 0 u.current
      rw [contents, Ustring.cells, string]
      rfl

theorem vsnprintf_string (u : Ustring) (out : Text) : (vsnprintf u out).string = none ↔ u.string = none := by
  unfold vsnprintf
  dsimp only
  split_ifs
  · exact Iff.rfl
  · exact Option.map_eq_none_iff

theorem Ustring.Valid.roomy {u : Ustring} (valid : u.Valid) : u.Roomy := by
  refine ⟨valid.toSized, fun none_ => ?_, fun some_ => valid.room.resolve_left some_⟩
  rcases valid.terminated with empty | terminated
  · exact empty.2
  · rw [Ustring.cells, none_] at terminated
    cases terminated

theorem vsnprintf_roomy {u : Ustring} (roomy : u.Roomy) (out : Text) : (vsnprintf u out).Roomy := by
  refine ⟨(vsnprintf_sized roomy.toSized out).1, fun none_ => ?_, fun some_ => ?_⟩
  · rw [vsnprintf_current]
    exact roomy.start ((vsnprintf_string u out).mp none_)
  · rw [vsnprintf_current, vsnprintf_total]
    exact roomy.room fun none_ => some_ ((vsnprintf_string u out).mpr none_)

theorem grown_roomy (junk : ℕ → Char) {u : Ustring} (roomy : u.Roomy) (out : Text) :
    (grown junk u out).Roomy := by
  have fits := grown_room junk roomy.inside out
  exact ⟨(grown_sized junk roomy.toSized out).1, fun none_ => absurd none_ (Option.some_ne_none _),
    fun _ => by omega⟩

theorem stored_exact {u : Ustring} (roomy : u.Roomy) {out : Text} (short : out.length < 2 ^ 31)
    (room : out.length < u.total - u.current) :
    Ustring.Valid { vsnprintf u out with current := u.current + out.length } ∧
      Exact u out ((out.length : ℤ), { vsnprintf u out with current := u.current + out.length }) := by
  obtain ⟨valid, contents⟩ := vsnprintf_fits roomy.toSized room
  have some_ : (vsnprintf u out).string ≠ none := fun none_ => by
    have cells := roomy.allocated
    rw [Ustring.cells, (vsnprintf_string u out).mp none_] at cells
    simp only [Option.getD_none, List.length_nil] at cells
    omega
  exact ⟨valid, .inl ⟨short, rfl, valid.appended some_ contents rfl⟩⟩

theorem terminated_exact {u : Ustring} (roomy : u.Roomy) (out : Text) :
    (terminate (vsnprintf u out)).Valid ∧ Exact u out (-1, terminate (vsnprintf u out)) := by
  obtain ⟨valid, kept⟩ := terminate_valid (vsnprintf_roomy roomy out)
  exact ⟨valid, .inr ⟨rfl, kept.contents.trans (vsnprintf_sized roomy.toSized out).2,
    kept.current.trans (vsnprintf_current u out), kept.terminated⟩⟩

theorem exact_of_grown {junk : ℕ → Char} {u : Ustring} (sized : u.Sized) {out : Text} {q : ℤ × Ustring}
    (exact_ : Exact (grown junk u out) out q) : Exact u out q := by
  have contents := (grown_sized junk sized out).2
  have current : (grown junk u out).current = u.current := vsnprintf_current u out
  rcases exact_ with ⟨short, code, appended⟩ | ⟨code, kept⟩
  · exact .inl ⟨short, code, appended.contents.trans (by rw [contents]),
      appended.current.trans (by rw [current]), appended.room, appended.terminated⟩
  · exact .inr ⟨code, kept.contents.trans contents, kept.current.trans current, kept.terminated⟩

section Loops

variable (junk : ℕ → Char) {out : Text} {u : Ustring}

/-- However many passes the loop takes, it returns with all of the output or none of it. -/
theorem printLoop_exact (passes : ℕ) (roomy : u.Roomy) {h : Heap} {q : ℤ × Ustring}
    (ends : (printLoop junk out passes u h).1 = some q) : q.2.Valid ∧ Exact u out q := by
  induction passes generalizing u h with
  | zero => cases ends
  | succ passes ih =>
    by_cases full : out.length < 2 ^ 31 → u.total - u.current ≤ out.length
    · rw [printLoop_grows junk passes full, bind_apply] at ends
      split_ifs at ends with more
      · obtain ⟨valid, exact_⟩ := ih (grown_roomy junk roomy out) ends
        exact ⟨valid, exact_of_grown roomy.toSized exact_⟩
      · cases ends
        exact terminated_exact roomy out
    · obtain ⟨short, room⟩ := Classical.not_imp.mp full
      rw [printLoop_stores junk passes short (not_le.mp room)] at ends
      cases ends
      exact stored_exact roomy short (not_le.mp room)

theorem printLoop_more {passes more : ℕ} (le : passes ≤ more) {h : Heap}
    (ends : (printLoop junk out passes u h).1.isSome = true) :
    printLoop junk out more u h = printLoop junk out passes u h := by
  induction passes generalizing more u h with
  | zero => cases ends
  | succ passes ih =>
    obtain ⟨more, rfl⟩ := Nat.exists_eq_add_of_le' (Nat.one_le_of_lt le)
    by_cases full : out.length < 2 ^ 31 → u.total - u.current ≤ out.length
    · rw [printLoop_grows junk passes full, bind_apply] at ends ⊢
      rw [printLoop_grows junk more full, bind_apply]
      split_ifs at ends ⊢
      · exact ih (Nat.le_of_succ_le_succ le) ends
      · rfl
    · obtain ⟨short, room⟩ := Classical.not_imp.mp full
      rw [printLoop_stores junk passes short (not_le.mp room),
        printLoop_stores junk more short (not_le.mp room)]

theorem printLoop_short (inside : u.current ≤ u.total) (short : out.length < 2 ^ 31) (h : Heap) :
    (printLoop junk out 2 u h).1.isSome = true := by
  by_cases room : out.length < u.total - u.current
  · rw [printLoop_stores junk 1 short room]
    rfl
  · have fits := grown_room junk inside out
    rw [wanted, if_pos short] at fits
    rw [printLoop_grows junk 1 fun _ => not_lt.mp room, bind_apply, printLoop_stores junk 0 short fits]
    split_ifs <;> rfl

/-- For a longer one the loop only ends where it is refused memory. -/
theorem printLoop_long (long : 2 ^ 31 ≤ out.length) (passes : ℕ) (h : Heap) :
    (printLoop junk out passes u h).1.isSome = true ↔ false ∈ h.outcomes.take passes := by
  induction passes generalizing u h with
  | zero => simp [printLoop, pure_apply]
  | succ passes ih =>
    rw [printLoop_grows junk passes fun short => absurd long (not_le.mpr short), bind_apply,
      allocate_eq (by simp only [bufsiz]; omega)]
    obtain ⟨outcomes, wild⟩ := h
    cases outcomes with
    | nil => simpa [Heap.answer, Heap.later] using @ih (grown junk u out) ⟨[], wild⟩
    | cons served rest =>
      cases served with
      | false => simp [Heap.answer, pure_apply]
      | true => simpa [Heap.answer, Heap.later] using @ih (grown junk u out) ⟨rest, wild⟩

theorem printUString_eq (inside : u.current ≤ u.total) {passes : ℕ} {h : Heap} {q : ℤ × Ustring}
    (ends : (printLoop junk out passes u h).1 = some q) :
    printUString junk u out h = (q, (printLoop junk out passes u h).2) := by
  have some_ : (printLoop junk out passes u h).1.isSome = true := by rw [ends]; rfl
  have enough : (printLoop junk out (h.outcomes.length + 2) u h).1.isSome = true := by
    by_cases short : out.length < 2 ^ 31
    · rw [printLoop_more junk (by omega) (printLoop_short junk inside short h)]
      exact printLoop_short junk inside short h
    · have refused := List.mem_of_mem_take ((printLoop_long junk (not_lt.mp short) passes h).mp some_)
      refine (printLoop_long junk (not_lt.mp short) _ h).mpr ?_
      rwa [List.take_of_length_le (by omega)]
  have same : printLoop junk out (h.outcomes.length + 2) u h = printLoop junk out passes u h := by
    rcases le_total passes (h.outcomes.length + 2) with le | le
    · exact printLoop_more junk le some_
    · exact (printLoop_more junk le enough).symm
  rw [printUString_apply, same, ends]
  rfl

theorem printUString_short (inside : u.current ≤ u.total) (short : out.length < 2 ^ 31) (h : Heap)
    {passes : ℕ} (two : 2 ≤ passes) : printLoop junk out passes u h =
      (some (printUString junk u out h).1, (printUString junk u out h).2) := by
  have ends := printLoop_short junk inside short h
  obtain ⟨q, last⟩ := Option.isSome_iff_exists.mp ends
  rw [printLoop_more junk two ends, printUString_eq junk inside last]
  exact Prod.ext last rfl

end Loops

theorem Reachable.valid {u : Ustring} (reachable : Reachable u) : u.Valid := by
  induction reachable with
  | init => exact valid_init
  | print _ ends ih => exact (printLoop_exact _ _ ih.roomy ends).1

theorem Reachable.printUString (junk : ℕ → Char) {u : Ustring} (reachable : Reachable u) {out : Text}
    (short : out.length < 2 ^ 31) (h : Heap) : Reachable (printUString junk u out h).1.2 :=
  .print reachable (congrArg Prod.fst (printUString_short junk reachable.valid.inside short h le_rfl))

def HasRoom (u : Ustring) (out : Text) (h : Heap) : Prop :=
  out.length < u.total - u.current ∨ (allocate (u.total + out.length + bufsiz) h).1 = true

theorem printUString_code (junk : ℕ → Char) {u : Ustring} (inside : u.current ≤ u.total) {out : Text}
    (short : out.length < 2 ^ 31) (h : Heap) :
    (HasRoom u out h → (printUString junk u out h).1.1 = out.length) ∧
    (¬ HasRoom u out h → (printUString junk u out h).1.1 = -1) := by
  by_cases room : out.length < u.total - u.current
  · have loop := congrFun (printLoop_stores junk 0 short room) h
    rw [printUString_eq junk inside (congrArg Prod.fst loop)]
    exact ⟨fun _ => rfl, fun none_ => absurd (.inl room) none_⟩
  · have fits := grown_room junk inside out
    have loop := congrFun (@printLoop_grows junk 1 u out fun _ => not_lt.mp room) h
    rw [wanted, if_pos short] at fits
    rw [bind_apply, printLoop_stores junk 0 short fits, wanted, if_pos short] at loop
    by_cases served : (allocate (u.total + out.length + bufsiz) h).1 = true
    · rw [if_pos served] at loop
      rw [printUString_eq junk inside (congrArg Prod.fst loop)]
      exact ⟨fun _ => rfl, fun none_ => absurd (.inr served) none_⟩
    · rw [if_neg served] at loop
      rw [printUString_eq junk inside (congrArg Prod.fst loop)]
      exact ⟨fun some_ => absurd some_ (not_or.mpr ⟨room, served⟩), fun _ => rfl⟩

/-- A call returns with all of its output appended or, only where memory is refused, with the text
as it was. No pass follows the second if an `int` can count the output. For a longer one the call
returns just where memory is refused to it. -/
theorem printUString_exact {u : Ustring} (reachable : Reachable u) (junk : ℕ → Char) (out : Text) (h : Heap) :
    (∀ passes q, (printLoop junk out passes u h).1 = some q → Exact u out q) ∧
    (out.length < 2 ^ 31 →
      (HasRoom u out h → (printUString junk u out h).1.1 = out.length ∧
        Appended u out (printUString junk u out h).1.2) ∧
      (¬ HasRoom u out h → (printUString junk u out h).1.1 = -1 ∧
        Unchanged u (printUString junk u out h).1.2) ∧
      ∀ passes, 2 ≤ passes → printLoop junk out passes u h =
        (some (printUString junk u out h).1, (printUString junk u out h).2)) ∧
    (2 ^ 31 ≤ out.length →
      ((∃ passes q, (printLoop junk out passes u h).1 = some q) ↔ false ∈ h.outcomes)) := by
  have roomy := reachable.valid.roomy
  have exact_ : ∀ passes q, (printLoop junk out passes u h).1 = some q → Exact u out q :=
    fun passes q ends => (printLoop_exact junk passes roomy ends).2
  refine ⟨exact_, fun short => ?_, fun long => ⟨?_, fun refused => ?_⟩⟩
  · have two := fun passes => @printUString_short junk out u roomy.inside short h passes
    have returned := exact_ 2 _ (congrArg Prod.fst (two 2 le_rfl))
    obtain ⟨served, refused⟩ := printUString_code junk roomy.inside short h
    refine ⟨fun room => ?_, fun full => ?_, two⟩
    · rcases returned with ⟨-, code, appended⟩ | ⟨code, -⟩
      · exact ⟨code, appended⟩
      · have := served room
        omega
    · rcases returned with ⟨-, code, -⟩ | ⟨code, kept⟩
      · have := refused full
        omega
      · exact ⟨code, kept⟩
  · rintro ⟨passes, q, ends⟩
    refine List.mem_of_mem_take ((@printLoop_long junk out u long passes h).mp ?_)
    rw [ends]
    rfl
  · refine ⟨h.outcomes.length, Option.isSome_iff_exists.mp ((printLoop_long junk long _ h).mpr ?_)⟩
    rwa [List.take_length]

/-- "ab" printed to an empty string, and then "c", for which there is room. -/
theorem printUString_exact_abc :
    (printUString (fun _ => 'x') (printUString (fun _ => 'x') initUstring ['a', 'b'] ⟨[], false⟩).1.2 ['c']
        ⟨[false], false⟩).1.1 = (['c'] : Text).length ∧
      Appended (printUString (fun _ => 'x') initUstring ['a', 'b'] ⟨[], false⟩).1.2 ['c']
        (printUString (fun _ => 'x') (printUString (fun _ => 'x') initUstring ['a', 'b'] ⟨[], false⟩).1.2 ['c']
          ⟨[false], false⟩).1.2 :=
  ((printUString_exact (Reachable.init.printUString (fun _ => 'x') (by decide) ⟨[], false⟩) (fun _ => 'x')
    ['c'] ⟨[false], false⟩).2.1 (by decide)).1 (.inl (by decide +kernel))

/-- Two gigabytes of output: with memory always to be had the loop never ends. -/
theorem gigabytes_go_on :
    ¬ ∃ passes q, (printLoop (fun _ => 'x') (List.replicate (2 ^ 31) 'a') passes initUstring
      ⟨[], false⟩).1 = some q := by
  rintro ⟨passes, q, returns⟩
  have long : 2 ^ 31 ≤ (List.replicate (2 ^ 31) 'a').length := by rw [List.length_replicate]
  have refused := (printLoop_long _ long passes ⟨[], false⟩).mp (Option.isSome_iff_exists.mpr ⟨q, returns⟩)
  rw [List.take_nil] at refused
  exact absurd refused List.not_mem_nil

end Libdank.Printing
