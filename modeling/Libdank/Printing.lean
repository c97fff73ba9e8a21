import Libdank.Foundation.Buffers
import Libdank.Foundation.Requests
import Libdank.Parse

/-! The strings of `objects/objustring.c`, which grow as they are printed to. A
conversion is its output: what `vsnprintf` would print with room enough. -/
namespace Libdank.Printing
open Requests Parse Buffers

structure Ustring where
  string : Pointer Text
  current : ℕ
  total : ℕ
deriving DecidableEq, Repr

def initUstring : Ustring := ⟨none, 0, 0⟩

def Ustring.cells (u : Ustring) : Text := u.string.getD []

def Ustring.contents (u : Ustring) : Text := slice u.cells 0 u.current

def nul : Char := Char.ofNat 0

def bufsiz : ℕ := 8192

/-- As much of `out` as there is room for, and a NUL; nothing without any room. -/
def vsnprintf (u : Ustring) (out : Text) : Ustring :=
  let room := u.total - u.current
  if room = 0 then u
  else { u with string :=
    u.string.map fun cells => overwrite cells u.current (out.take (room - 1) ++ [nul]) }

/-- What `vsnprintf` returns: the length of all of the output, negative if no `int` holds it. -/
def printfResult (out : Text) : ℤ := if out.length < 2 ^ 31 then out.length else -1

def terminate (u : Ustring) : Ustring :=
  if u.total ≠ u.current then
    { u with string := u.string.map fun cells => overwrite cells u.current [nul] }
  else u

section Printers

-- What new cells happen to hold.
variable (junk : ℕ → Char)

/-- The loop of `vprintUString`, so many times around: `none` if it goes on after that. -/
def printLoop (out : Text) : ℕ → Ustring → Request (Option (ℤ × Ustring))
  | 0, _ => pure none
  | passes + 1, u =>
    let ret := printfResult out
    let u := vsnprintf u out
    if ret < 0 ∨ u.total - u.current ≤ ret.toNat then do
      let ret := if ret < 0 then 1 else ret
      let heap := u.total + ret.toNat + bufsiz
      if ← allocate heap then
        printLoop out passes { u with string := some (regrow junk u.cells heap), total := heap }
      else pure (some (-1, terminate u))
    else pure (some (ret, { u with current := u.current + ret.toNat }))

/-- With passes enough for every call that returns at all (`printUString_eq`); one that never
does is given -1. -/
def printUString (u : Ustring) (out : Text) : Request (ℤ × Ustring) := do
  let h ← get
  let ended ← printLoop junk out (h.outcomes.length + 2) u
  pure (ended.getD (-1, u))

def printComma (u : Ustring) (z : ℕ) : Request (ℤ × Ustring) :=
  if z ≠ 0 then printUString junk u [','] else pure (0, u)

def printList {α : Type} (stringize : Ustring → α → Request (Bool × Ustring)) (u : Ustring)
    (z : ℕ) : List α → Request (Bool × Ustring)
  | [] => pure (true, u)
  | cur :: rest => do
    let (r, u) ← printComma junk u z
    if r < 0 then pure (false, u)
    else do
      let (ok, u) ← stringize u cur
      if ok then printList stringize u (z + 1) rest else pure (false, u)

end Printers

/-- The cells are those allocated, and the text lies within them. -/
structure Ustring.Sized (u : Ustring) : Prop where
  allocated : u.cells.length = u.total
  inside : u.current ≤ u.total

/-- A string between two calls: nothing allocated, or a NUL at its end. -/
structure Ustring.Valid (u : Ustring) : Prop extends u.Sized where
  terminated : u.string = none ∧ u.current = 0 ∨ u.cells[u.current]? = some nul

theorem valid_init : initUstring.Valid := ⟨⟨rfl, le_rfl⟩, .inl ⟨rfl, rfl⟩⟩

theorem Ustring.Sized.string_some {u : Ustring} (sized : u.Sized) (room : u.total - u.current ≠ 0) :
    u.string = some u.cells := by
  have allocated := sized.allocated
  unfold Ustring.cells at allocated ⊢
  cases string : u.string with
  | none =>
    simp only [string, Option.getD_none, List.length_nil] at allocated
    omega
  | some cells => rfl

theorem vsnprintf_cells {u : Ustring} (sized : u.Sized) (room : u.total - u.current ≠ 0) (out : Text) :
    (vsnprintf u out).cells =
      overwrite u.cells u.current (out.take (u.total - u.current - 1) ++ [nul]) := by
  have some_ := sized.string_some room
  generalize u.cells = cells at some_
  simp only [vsnprintf, if_neg room, some_, Option.map_some]
  rfl

theorem vsnprintf_current (u : Ustring) (out : Text) : (vsnprintf u out).current = u.current := by
  unfold vsnprintf
  dsimp only
  split_ifs <;> rfl

theorem vsnprintf_total (u : Ustring) (out : Text) : (vsnprintf u out).total = u.total := by
  unfold vsnprintf
  dsimp only
  split_ifs <;> rfl

theorem vsnprintf_sized {u : Ustring} (sized : u.Sized) (out : Text) :
    (vsnprintf u out).Sized ∧ (vsnprintf u out).contents = u.contents := by
  have inside := sized.inside
  have allocated := sized.allocated
  by_cases room : u.total - u.current = 0
  · have same : vsnprintf u out = u := by simp [vsnprintf, room]
    rw [same]
    exact ⟨sized, rfl⟩
  · have cells := vsnprintf_cells sized room out
    refine ⟨⟨?_, ?_⟩, ?_⟩
    · rw [cells, vsnprintf_total, length_overwrite, allocated]
      rw [List.length_append, List.length_take, List.length_singleton]
      omega
    · rw [vsnprintf_current, vsnprintf_total]
      exact inside
    · rw [Ustring.contents, cells, vsnprintf_current, slice_overwrite_before _ _ _ (by omega)]
      rfl

theorem vsnprintf_fits {u : Ustring} (sized : u.Sized) {out : Text}
    (room : out.length < u.total - u.current) :
    Ustring.Valid { vsnprintf u out with current := u.current + out.length } ∧
      Ustring.contents { vsnprintf u out with current := u.current + out.length } =
        u.contents ++ out := by
  have inside := sized.inside
  have allocated := sized.allocated
  have front : (u.cells.take u.current).length = u.current := by
    rw [List.length_take]
    omega
  have cells : (vsnprintf u out).cells = overwrite u.cells u.current (out ++ [nul]) := by
    rw [vsnprintf_cells sized (by omega), List.take_of_length_le (by omega)]
  have shape : overwrite u.cells u.current (out ++ [nul]) =
      (u.cells.take u.current ++ out) ++ (nul :: u.cells.drop (u.current + (out.length + 1))) := by
    simp [overwrite]
  have written : (u.cells.take u.current ++ out).length = u.current + out.length := by
    rw [List.length_append, front]
  refine ⟨⟨⟨?_, ?_⟩, .inr ?_⟩, ?_⟩
  · change (vsnprintf u out).cells.length = (vsnprintf u out).total
    exact (vsnprintf_sized sized out).1.allocated
  · change u.current + out.length ≤ (vsnprintf u out).total
    rw [vsnprintf_total]
    omega
  · change (vsnprintf u out).cells[u.current + out.length]? = some nul
    rw [cells, shape, ← written, List.getElem?_append_right le_rfl]
    simp
  · change slice (vsnprintf u out).cells 0 (u.current + out.length) = slice u.cells 0 u.current ++ out
    rw [cells, shape, ← written, slice, slice, List.drop_zero, List.take_left, List.drop_zero]

theorem regrow_sized (junk : ℕ → Char) {u : Ustring} (sized : u.Sized) {heap : ℕ}
    (grows : u.total ≤ heap) :
    Ustring.Sized { u with string := some (regrow junk u.cells heap), total := heap } ∧
      Ustring.contents { u with string := some (regrow junk u.cells heap), total := heap } =
        u.contents := by
  have inside := sized.inside
  have allocated := sized.allocated
  refine ⟨⟨length_regrow junk _ (by omega), le_trans inside grows⟩, ?_⟩
  exact slice_regrow junk u.cells heap 0 u.current (by omega)

/-- The call returns a `good` code and has appended all of `out`. -/
def Appends {ρ : Type} (good : ρ → Prop) (u : Ustring) (out : Text) (q : ρ × Ustring) (h : Heap) :
    Prop :=
  good q.1 ∧ q.2.Valid ∧ q.2.contents = u.contents ++ out ∧ Served h

theorem printfResult_short {out : Text} (short : out.length < 2 ^ 31) :
    printfResult out = out.length := if_pos short

theorem printfResult_long {out : Text} (long : 2 ^ 31 ≤ out.length) : printfResult out = -1 :=
  if_neg (not_lt.mpr long)

section Passes

variable (junk : ℕ → Char) (passes : ℕ) {u : Ustring} {out : Text}

theorem printLoop_stores (short : out.length < 2 ^ 31) (room : out.length < u.total - u.current) :
    printLoop junk out (passes + 1) u =
      pure (some ((out.length : ℤ), { vsnprintf u out with current := u.current + out.length })) := by
  rw [printLoop]
  dsimp only
  rw [printfResult_short short, vsnprintf_total, vsnprintf_current, Int.toNat_natCast,
    if_neg (by omega)]

def wanted (out : Text) : ℕ := if out.length < 2 ^ 31 then out.length else 1

def grown (u : Ustring) (out : Text) : Ustring :=
  { vsnprintf u out with
    string := some (regrow junk (vsnprintf u out).cells (u.total + wanted out + bufsiz))
    total := u.total + wanted out + bufsiz }

theorem printLoop_grows (full : out.length < 2 ^ 31 → u.total - u.current ≤ out.length) :
    printLoop junk out (passes + 1) u = (do
      if ← allocate (u.total + wanted out + bufsiz) then printLoop junk out passes (grown junk u out)
      else pure (some (-1, terminate (vsnprintf u out)))) := by
  rw [printLoop]
  dsimp only
  by_cases short : out.length < 2 ^ 31
  · rw [printfResult_short short, vsnprintf_total, vsnprintf_current, Int.toNat_natCast,
      if_pos (.inr (full short)), if_neg (by omega), Int.toNat_natCast, grown, wanted, if_pos short, vsnprintf_current]
  · rw [printfResult_long (not_lt.mp short), vsnprintf_total, if_pos (.inl (by decide)),
      if_pos (by decide), grown, wanted, if_neg short]
    rfl

end Passes

theorem printUString_apply (junk : ℕ → Char) (u : Ustring) (out : Text) (h : Heap) :
    printUString junk u out h =
      ((printLoop junk out (h.outcomes.length + 2) u h).1.getD (-1, u),
        (printLoop junk out (h.outcomes.length + 2) u h).2) := rfl

theorem grown_sized (junk : ℕ → Char) {u : Ustring} (sized : u.Sized) (out : Text) :
    (grown junk u out).Sized ∧ (grown junk u out).contents = u.contents := by
  obtain ⟨kept, same⟩ := vsnprintf_sized sized out
  obtain ⟨ready, contents⟩ := @regrow_sized junk _ kept (u.total + wanted out + bufsiz)
    (by rw [vsnprintf_total]; omega)
  exact ⟨ready, contents.trans same⟩

theorem grown_room (junk : ℕ → Char) {u : Ustring} (inside : u.current ≤ u.total) (out : Text) :
    wanted out < (grown junk u out).total - (grown junk u out).current := by
  simp only [grown, vsnprintf_current, bufsiz]
  omega

theorem printUString_served (junk : ℕ → Char) {u : Ustring} (valid : u.Valid) {out : Text}
    (short : out.length < 2 ^ 31) :
    Ensures Served (printUString junk u out) (Appends (0 ≤ ·) u out) := by
  have sized := valid.toSized
  intro h hs
  rw [printUString_apply]
  by_cases room : out.length < u.total - u.current
  · obtain ⟨valid', contents⟩ := vsnprintf_fits sized room
    rw [printLoop_stores junk _ short room]
    exact ⟨Int.natCast_nonneg _, valid', contents, hs⟩
  · obtain ⟨ready, same⟩ := grown_sized junk sized out
    have fits := grown_room junk sized.inside out
    rw [wanted, if_pos short] at fits
    obtain ⟨valid', contents⟩ := vsnprintf_fits ready fits
    obtain ⟨yes, hs'⟩ := @allocate_served (u.total + wanted out + bufsiz)
      (by simp [bufsiz]) h hs
    rw [printLoop_grows junk _ fun _ => not_lt.mp room, bind_apply, if_pos yes,
      printLoop_stores junk _ short fits]
    exact ⟨Int.natCast_nonneg _, valid', contents.trans (by rw [same]), hs'⟩

theorem appends_bind {ρ ρ' : Type} {m : Request (ρ × Ustring)}
    {f : ρ × Ustring → Request (ρ' × Ustring)} {good : ρ → Prop} {good' : ρ' → Prop} {u : Ustring}
    {first second : Text}
    (one : Ensures Served m (Appends good u first))
    (two : ∀ q : ρ × Ustring, good q.1 → q.2.Valid →
      Ensures Served (f q) (Appends good' q.2 second)) :
    Ensures Served (m >>= f) (Appends good' u (first ++ second)) := by
  refine ensures_bind one fun q h hq => ?_
  obtain ⟨ok, valid, contents, hs⟩ := hq
  obtain ⟨ok', valid', contents', hs'⟩ := two q ok valid h hs
  exact ⟨ok', valid', by rw [contents', contents, List.append_assoc], hs'⟩

theorem appends_then {ρ' : Type} {m : Request (ℤ × Ustring)}
    {fail f : ℤ × Ustring → Request (ρ' × Ustring)} {good' : ρ' → Prop} {u : Ustring}
    {first second : Text} (one : Ensures Served m (Appends (0 ≤ ·) u first))
    (two : ∀ q : ℤ × Ustring, q.2.Valid → Ensures Served (f q) (Appends good' q.2 second)) :
    Ensures Served (m >>= fun q => if q.1 < 0 then fail q else f q)
      (Appends good' u (first ++ second)) := by
  refine appends_bind one fun q ok valid => ?_
  rw [if_neg (not_lt.mpr ok)]
  exact two q valid

theorem appends_pure {ρ : Type} {good : ρ → Prop} {r : ρ} {u : Ustring} (valid : u.Valid)
    (ok : good r) : Ensures Served (pure (r, u)) (Appends good u []) :=
  ensures_pure fun _ hs => ⟨ok, valid, (List.append_nil _).symm, hs⟩

theorem appends_last {m : Request (ℤ × Ustring)} {u : Ustring} {out : Text}
    (last : Ensures Served m (Appends (0 ≤ ·) u out)) :
    Ensures Served (m >>= fun q => pure (decide (0 ≤ q.1), q.2)) (Appends (· = true) u out) := by
  refine ensures_bind last fun q h hq => ?_
  obtain ⟨ok, valid, contents, hs⟩ := hq
  exact ⟨decide_eq_true ok, valid, contents, hs⟩

theorem printComma_served (junk : ℕ → Char) {u : Ustring} (valid : u.Valid) (z : ℕ) :
    Ensures Served (printComma junk u z)
      (Appends (0 ≤ ·) u (if z ≠ 0 then [','] else [])) := by
  rw [printComma]
  by_cases later : z ≠ 0
  · rw [if_pos later, if_pos later]
    exact printUString_served junk valid (by decide)
  · rw [if_neg later, if_neg later]
    exact appends_pure valid le_rfl

def listText {α : Type} (text : α → Text) (z : ℕ) : List α → Text
  | [] => []
  | cur :: rest => (if z ≠ 0 then [','] else []) ++ (text cur ++ listText text (z + 1) rest)

@[simp] theorem listText_zero {α : Type} (text : α → Text) (cur : α) (rest : List α) :
    listText text 0 (cur :: rest) = text cur ++ listText text 1 rest := rfl

@[simp] theorem listText_succ {α : Type} (text : α → Text) (z : ℕ) (items : List α) :
    listText text (z + 1) items = items.flatMap fun i => ',' :: text i := by
  induction items generalizing z with
  | nil => rfl
  | cons cur rest ih => simp [listText, ih]

theorem length_le_flatMap {α : Type} (text : α → Text) (items : List α) :
    items.length ≤ (items.flatMap fun i => ',' :: text i).length := by
  induction items with
  | nil => simp
  | cons cur rest ih =>
    simp only [List.flatMap_cons, List.length_append, List.length_cons]
    omega

section Lists

variable (junk : ℕ → Char) {α : Type} {stringize : Ustring → α → Request (Bool × Ustring)}
  {text : α → Text}
  (each : ∀ (u : Ustring) (cur : α), u.Valid →
    Ensures Served (stringize u cur) (Appends (· = true) u (text cur)))

include each

theorem printList_served (items : List α) (z : ℕ) {u : Ustring} (valid : u.Valid) :
    Ensures Served (printList junk stringize u z items)
      (Appends (· = true) u (listText text z items)) := by
  induction items generalizing z u with
  | nil => exact appends_pure valid rfl
  | cons cur rest ih =>
    rw [printList, listText]
    refine appends_then (printComma_served junk valid z) fun q valid₁ => ?_
    refine appends_bind (each q.2 cur valid₁) fun q ok valid₂ => ?_
    obtain ⟨done_, u₂⟩ := q
    dsimp only at ok ⊢
    rw [if_pos ok]
    exact ih (z + 1) valid₂

end Lists

end Libdank.Printing
