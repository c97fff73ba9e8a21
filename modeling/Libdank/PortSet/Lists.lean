import Libdank.PortSet.Parse
import Mathlib.Data.List.TakeWhile

/-! Numeric lists of ports, as `parse_numeric_ports` reads them: which characters
a range takes up, and where the commas are. -/
namespace Libdank.PortSet
open Requests Parse

def Clear (start rest : Text) : Prop := ∃ pre, start = pre ++ rest ∧ ',' ∉ pre

theorem Clear.trans {a b c : Text} (first : Clear a b) (second : Clear b c) : Clear a c := by
  obtain ⟨pre, rfl, clear⟩ := first
  obtain ⟨pre', rfl, clear'⟩ := second
  exact ⟨pre ++ pre', by simp, by simp [clear, clear']⟩

theorem Clear.length_le {start rest : Text} (clear : Clear start rest) : rest.length ≤ start.length := by
  obtain ⟨pre, rfl, -⟩ := clear
  simp

theorem Clear.drop_eq {start rest : Text} (clear : Clear start rest) :
    start.drop (start.length - rest.length) = rest := by
  obtain ⟨pre, rfl, -⟩ := clear
  simp

theorem clear_of_all {text : Text} {n : ℕ} (all : ∀ c ∈ text.take n, c ≠ ',') : Clear text (text.drop n) :=
  ⟨text.take n, (List.take_append_drop n text).symm, fun comma => all ',' comma rfl⟩

theorem clear_tail {text : Text} {c : Char} (head : text.head? = some c) (other : c ≠ ',') :
    Clear text text.tail := by
  cases text with
  | nil => simp at head
  | cons d rest =>
    obtain rfl : d = c := by simpa using head
    exact ⟨[d], rfl, by simpa using other.symm⟩

theorem clear_whitespace (text : Text) : Clear text (parseWhitespace text) := by
  refine ⟨text.takeWhile isspace, List.takeWhile_append_dropWhile.symm, fun comma => ?_⟩
  have space := List.mem_takeWhile_imp comma
  exact absurd space (by decide)

theorem portLoop_digits_only {buf : Text} {p q n : ℕ} (read : portLoop p buf = some (q, n)) :
    ∀ c ∈ buf.take n, isdigit c = true := by
  induction buf generalizing p n with
  | nil => simp
  | cons c cur ih =>
    rw [portLoop] at read
    dsimp only at read
    split_ifs at read with digit
    · obtain ⟨⟨q', m⟩, tail, same⟩ := Option.map_eq_some_iff.mp read
      obtain ⟨rfl, rfl⟩ := Prod.mk.inj same
      intro d hd
      rcases List.mem_cons.mp hd with rfl | hd
      · exact digit
      · exact ih tail d hd
    · obtain ⟨-, rfl⟩ := Prod.mk.inj (Option.some.inj read)
      simp

theorem parsePort_clear {buf : Text} {n : ℕ} {port : UInt16} (read : parsePort buf = some (n, port)) :
    Clear buf (buf.drop n) ∧ (buf.drop n).length < buf.length := by
  obtain ⟨⟨p, m⟩, digits, some_⟩ := Option.bind_eq_some_iff.mp read
  dsimp only at some_
  split_ifs at some_ with none_
  obtain ⟨rfl, -⟩ := Prod.mk.inj (Option.some.inj some_)
  refine ⟨clear_of_all fun c hc => ?_, ?_⟩
  · rintro rfl
    exact absurd (portLoop_digits_only digits _ hc) (by decide)
  · cases buf with
    | nil =>
      obtain ⟨-, rfl⟩ := Prod.mk.inj (Option.some.inj digits)
      exact absurd rfl none_
    | cons c cur =>
      rw [List.length_drop, List.length_cons]
      omega

theorem portrangeDone_eq {start buf : Text} {pr pr' : Portrange} {n : ℕ}
    (done : portrangeDone start buf pr = some (n, pr')) : n = start.length - buf.length ∧ pr' = pr := by
  unfold portrangeDone at done
  split at done
  · obtain ⟨rfl, rfl⟩ := Prod.mk.inj (Option.some.inj done)
    exact ⟨rfl, rfl⟩
  · split_ifs at done
    obtain ⟨rfl, rfl⟩ := Prod.mk.inj (Option.some.inj done)
    exact ⟨rfl, rfl⟩

/-- A range takes up at least one character, and no comma, and runs upwards. -/
structure RangeRead (start : Text) (n : ℕ) (pr : Portrange) : Prop where
  clear : Clear start (start.drop n)
  some_ : 0 < n
  inside : n ≤ start.length
  ordered : pr.lower ≤ pr.upper

theorem rangeRead_of_done {start buf : Text} {pr pr' : Portrange} {n : ℕ}
    (done : portrangeDone start buf pr = some (n, pr')) (clear : Clear start buf)
    (shorter : buf.length < start.length) (ordered : pr.lower ≤ pr.upper) : RangeRead start n pr' := by
  obtain ⟨rfl, rfl⟩ := portrangeDone_eq done
  exact ⟨clear.drop_eq.symm ▸ clear, Nat.sub_pos_of_lt shorter, Nat.sub_le _ _, ordered⟩

theorem joint_other {text : Text} (joint : text.head? = some ':' ∨ text.head? = some '-') :
    Clear text text.tail := by
  rcases joint with head | head
  · exact clear_tail head (by decide)
  · exact clear_tail head (by decide)

theorem parsePortrange_spec {start : Text} {n : ℕ} {pr : Portrange}
    (read : parsePortrange start = some (n, pr)) : RangeRead start n pr := by
  have skipped := clear_whitespace start
  rw [parsePortrange] at read
  generalize parseWhitespace start = buf at read skipped
  have shorter := skipped.length_le
  dsimp only at read
  by_cases joint : buf.head? = some ':' ∨ buf.head? = some '-'
  · rw [if_pos joint] at read
    obtain ⟨⟨i, upper⟩, port, done⟩ := Option.bind_eq_some_iff.mp read
    obtain ⟨digits, less⟩ := parsePort_clear port
    have sign := joint_other joint
    have := sign.length_le
    dsimp only at done
    exact rangeRead_of_done done ((skipped.trans sign).trans digits) (by omega) UInt16.zero_le
  · rw [if_neg joint] at read
    obtain ⟨⟨i, lower⟩, port, rest⟩ := Option.bind_eq_some_iff.mp read
    obtain ⟨digits, less⟩ := parsePort_clear port
    have first := skipped.trans digits
    dsimp only at rest
    generalize buf.drop i = buf' at rest first less
    split_ifs at rest with closed open_
    · obtain ⟨⟨i, upper⟩, port', done⟩ := Option.bind_eq_some_iff.mp rest
      obtain ⟨digits', less'⟩ := parsePort_clear port'
      have sign := joint_other closed.1.symm
      have := sign.length_le
      dsimp only at done
      refine rangeRead_of_done done ((first.trans sign).trans digits') (by omega) ?_
      split_ifs with swap
      · exact UInt16.le_of_lt swap
      · exact UInt16.not_lt.mp swap
    · have sign := joint_other open_
      have := sign.length_le
      refine rangeRead_of_done rest (first.trans sign) (by omega) ?_
      have fits := lower.toNat_lt
      rw [UInt16.le_iff_toNat_le]
      simp only [UInt16.reduceToNat]
      omega
    · exact rangeRead_of_done rest first (by omega) (UInt16.le_refl _)

/-- A range of a list: where in the text it begins and ends, and whether a comma
comes next. -/
structure Item where
  start : ℕ
  stop : ℕ
  range : Portrange
  comma : Bool
deriving DecidableEq, Repr

/-- The items of the list at the front of `buf`, which is `pos` characters into
the text, and what is left behind them. -/
def itemsRead (buf : Text) (pos : ℕ) : List Item × Text :=
  match _found : parsePortrange buf with
  | none => ([], buf)
  | some (i, pr) =>
    if (buf.drop i).head? = some ',' then
      (⟨pos, pos + i, pr, true⟩ :: (itemsRead (buf.drop i).tail (pos + i + 1)).1,
        (itemsRead (buf.drop i).tail (pos + i + 1)).2)
    else
      (⟨pos, pos + i, pr, false⟩ :: (itemsRead (buf.drop i) (pos + i)).1,
        (itemsRead (buf.drop i) (pos + i)).2)
termination_by buf.length
decreasing_by
  all_goals
    have := (parsePortrange_spec _found).some_
    have := (parsePortrange_spec _found).inside
    simp only [List.length_tail, List.length_drop]
    omega

section Items

variable {buf : Text} {pos i : ℕ} {pr : Portrange}

theorem itemsRead_none (missing : parsePortrange buf = none) : itemsRead buf pos = ([], buf) := by
  rw [itemsRead]
  split
  · rfl
  · next found => exact absurd (missing.symm.trans found) (by simp)

def itemEnd (buf : Text) (i : ℕ) : ℕ := if (buf.drop i).head? = some ',' then i + 1 else i

theorem le_itemEnd (buf : Text) (i : ℕ) : i ≤ itemEnd buf i := by
  rw [itemEnd]
  split_ifs <;> omega

theorem itemEnd_le (inside : i ≤ buf.length) : itemEnd buf i ≤ buf.length := by
  rw [itemEnd]
  split_ifs with comma
  · by_contra past
    rw [List.drop_eq_nil_of_le (by omega)] at comma
    simp at comma
  · exact inside

theorem itemsRead_found (found : parsePortrange buf = some (i, pr)) :
    itemsRead buf pos =
      (⟨pos, pos + i, pr, decide ((buf.drop i).head? = some ',')⟩ ::
          (itemsRead (buf.drop (itemEnd buf i)) (pos + itemEnd buf i)).1,
        (itemsRead (buf.drop (itemEnd buf i)) (pos + itemEnd buf i)).2) := by
  rw [itemsRead]
  split
  · next missing => exact absurd (missing.symm.trans found) (by simp)
  · next found' =>
    obtain ⟨rfl, rfl⟩ := Prod.mk.inj (Option.some.inj (found'.symm.trans found))
    rw [itemEnd]
    split_ifs with comma
    · rw [List.tail_drop, decide_eq_true comma, Nat.add_assoc]
    · rw [decide_eq_false comma]

theorem items_induction {motive : Text → ℕ → Prop}
    (none_ : ∀ buf pos, parsePortrange buf = none → motive buf pos)
    (item : ∀ buf pos i pr, parsePortrange buf = some (i, pr) →
      motive (buf.drop (itemEnd buf i)) (pos + itemEnd buf i) → motive buf pos) (buf : Text) (pos : ℕ) :
    motive buf pos := by
  fun_induction itemsRead buf pos with
  | case1 buf pos missing => exact none_ buf pos missing
  | case2 buf pos i pr found here ih =>
    refine item buf pos i pr found ?_
    rwa [itemEnd, if_pos here, ← List.tail_drop, ← Nat.add_assoc]
  | case3 buf pos i pr found other ih =>
    refine item buf pos i pr found ?_
    rwa [itemEnd, if_neg other]

end Items

theorem numericPortsLoop_found {buf : Text} {i : ℕ} {pr : Portrange} (found : parsePortrange buf = some (i, pr))
    (passes : ℕ) (need : Bool) (tmp : Portset) (h : Heap) :
    numericPortsLoop (passes + 1) buf need tmp h =
      (if (mergePortset tmp pr h).1.1 = true then
        if (buf.drop i).head? = some ',' then
          numericPortsLoop passes (buf.drop i).tail need (mergePortset tmp pr h).1.2
        else numericPortsLoop passes (buf.drop i) false (mergePortset tmp pr h).1.2
      else pure (none, freePortset (mergePortset tmp pr h).1.2)) (mergePortset tmp pr h).2 := by
  rw [numericPortsLoop, found]
  rfl

/-- What the loop reads does not depend on memory: it merges the ranges in turn,
and a range is no longer needed once one has had no comma behind it. -/
theorem numericPortsLoop_eq (passes : ℕ) (buf : Text) (pos : ℕ) (need : Bool) (tmp : Portset)
    (enough : buf.length < passes) (h : Heap) :
    numericPortsLoop passes buf need tmp h =
      (untilFailure mergePortset tmp ((itemsRead buf pos).1.map Item.range) >>= fun q =>
        pure (if q.1 then (some (need && (itemsRead buf pos).1.all Item.comma, (itemsRead buf pos).2), q.2)
          else (none, freePortset q.2))) h := by
  induction passes generalizing buf pos need tmp h with
  | zero => omega
  | succ passes ih =>
    cases found : parsePortrange buf with
    | none =>
      rw [numericPortsLoop, found, itemsRead_none found]
      simp only [List.map_nil, List.all_nil, Bool.and_true]
      rfl
    | some q =>
      obtain ⟨i, pr⟩ := q
      have inside := (parsePortrange_spec found).inside
      have some_ := (parsePortrange_spec found).some_
      have shorter : (buf.drop (itemEnd buf i)).length < passes := by
        have := le_itemEnd buf i
        rw [List.length_drop]
        omega
      rw [numericPortsLoop_found found, bind_apply, itemsRead_found found, List.map_cons, untilFailure_cons]
      by_cases ok : (mergePortset tmp pr h).1.1 = true
      · rw [if_pos ok, if_pos ok]
        by_cases comma : (buf.drop i).head? = some ','
        · have end_ : itemEnd buf i = i + 1 := if_pos comma
          rw [end_] at shorter ⊢
          rw [if_pos comma, List.tail_drop, ih _ (pos + (i + 1)) _ _ shorter, decide_eq_true comma]
          simp only [List.all_cons, Bool.true_and]
          rfl
        · have end_ : itemEnd buf i = i := if_neg comma
          rw [end_] at shorter ⊢
          rw [if_neg comma, ih _ (pos + i) _ _ shorter, decide_eq_false comma]
          simp only [List.all_cons, Bool.false_and, Bool.and_false]
          rfl
      · rw [if_neg ok, if_neg ok]
        rfl

section Commas

theorem itemsRead_head (buf : Text) (pos : ℕ) : ∀ item ∈ (itemsRead buf pos).1.head?, item.start = pos := by
  cases found : parsePortrange buf with
  | none => simp [itemsRead_none found]
  | some q =>
    obtain ⟨i, pr⟩ := q
    simp [itemsRead_found found]

theorem itemsRead_nil {buf : Text} {pos : ℕ} (none_ : (itemsRead buf pos).1 = []) :
    (itemsRead buf pos).2 = buf := by
  cases found : parsePortrange buf with
  | none => rw [itemsRead_none found]
  | some q =>
    obtain ⟨i, pr⟩ := q
    rw [itemsRead_found found] at none_
    exact absurd none_ (List.cons_ne_nil _ _)

theorem RangeRead.no_comma {buf : Text} {i j : ℕ} {pr : Portrange} (read : RangeRead buf i pr) (before : j < i) :
    buf[j]? ≠ some ',' := by
  obtain ⟨pre, whole, clear⟩ := read.clear
  have length := congrArg List.length whole
  have inside := read.inside
  rw [List.length_append, List.length_drop] at length
  intro comma
  rw [whole, List.getElem?_append_left (by omega)] at comma
  exact clear (List.mem_of_getElem? comma)

theorem RangeRead.comma_before {buf : Text} {i j : ℕ} {pr : Portrange} (read : RangeRead buf i pr)
    (before : j < itemEnd buf i) (comma : buf[j]? = some ',') : j = i := by
  by_contra other
  refine read.no_comma ?_ comma
  rw [itemEnd] at before
  split_ifs at before <;> omega

/-- Each comma up to where the list ends follows an item, and the next item, if
there is one, follows the comma. -/
theorem commas_between (buf : Text) (pos : ℕ) : ∀ j, j < buf.length - (itemsRead buf pos).2.length →
    buf[j]? = some ',' → ∃ before item after, (itemsRead buf pos).1 = before ++ item :: after ∧
      item.stop = pos + j ∧ item.comma = true ∧ ∀ next ∈ after.head?, next.start = pos + j + 1 := by
  induction buf, pos using items_induction with
  | none_ buf pos missing =>
    intro j before
    rw [itemsRead_none missing, Nat.sub_self] at before
    exact absurd before (Nat.not_lt_zero j)
  | item buf pos i pr found ih =>
    intro j inside comma
    have read := parsePortrange_spec found
    rw [itemsRead_found found] at inside ⊢
    rcases Nat.lt_or_ge j (itemEnd buf i) with before | behind
    · have same := read.comma_before before comma
      subst same
      rw [← List.head?_drop] at comma
      refine ⟨[], _, _, rfl, rfl, decide_eq_true comma, ?_⟩
      rw [show itemEnd buf j = j + 1 from if_pos comma]
      exact itemsRead_head _ _
    · obtain ⟨k, rfl⟩ := Nat.exists_eq_add_of_le behind
      generalize itemEnd buf i = end_ at *
      have moved : (buf.drop end_)[k]? = some ',' := by
        rw [List.getElem?_drop]
        exact comma
      have within : k < (buf.drop end_).length - (itemsRead (buf.drop end_) (pos + end_)).2.length := by
        rw [List.length_drop]
        dsimp only at inside
        omega
      obtain ⟨before, item, after, split, stop, trailing, next⟩ := ih k within moved
      refine ⟨_ :: before, item, after, by rw [split]; rfl, by omega, trailing, ?_⟩
      intro item hi
      have := next item hi
      omega

theorem last_cases {α : Type} {x last : α} {l : List α} (hl : last ∈ (x :: l).getLast?) :
    (l = [] ∧ last = x) ∨ last ∈ l.getLast? := by
  cases l with
  | nil => exact .inl ⟨rfl, by simpa [eq_comm] using hl⟩
  | cons y l => exact .inr (by rwa [List.getLast?_cons_cons] at hl)

theorem itemsRead_bounds (buf : Text) (pos : ℕ) :
    (itemsRead buf pos).2.length ≤ buf.length ∧
    (∀ item ∈ (itemsRead buf pos).1, pos ≤ item.start ∧
      item.start < pos + (buf.length - (itemsRead buf pos).2.length)) ∧
    ∀ last ∈ (itemsRead buf pos).1.getLast?, last.comma = true →
      pos + (buf.length - (itemsRead buf pos).2.length) = last.stop + 1 ∧
        pos ≤ last.stop ∧ buf[last.stop - pos]? = some ',' := by
  induction buf, pos using items_induction with
  | none_ buf pos missing => simp [itemsRead_none missing]
  | item buf pos i pr found ih =>
    have some_ := (parsePortrange_spec found).some_
    have past := le_itemEnd buf i
    have inside := itemEnd_le (parsePortrange_spec found).inside
    rw [itemsRead_found found]
    obtain ⟨shorter, starts, dangling⟩ := ih
    rw [List.length_drop] at shorter starts dangling
    refine ⟨by dsimp only; omega, fun item hi => ?_, fun last hl trailing => ?_⟩
    · rcases List.mem_cons.mp hi with rfl | hi
      · dsimp only
        omega
      · have := starts item hi
        dsimp only
        omega
    · rcases last_cases hl with ⟨none_, rfl⟩ | later
      · have comma := of_decide_eq_true trailing
        have end_ : itemEnd buf i = i + 1 := if_pos comma
        have left := congrArg List.length (itemsRead_nil none_)
        rw [List.length_drop] at left
        rw [List.head?_drop] at comma
        refine ⟨by dsimp only; omega, Nat.le_add_right _ _, ?_⟩
        rwa [Nat.add_sub_cancel_left]
      · obtain ⟨finish, behind, comma⟩ := dangling last later trailing
        rw [List.getElem?_drop] at comma
        refine ⟨by dsimp only; omega, by omega, ?_⟩
        rwa [show last.stop - pos = itemEnd buf i + (last.stop - (pos + itemEnd buf i)) by omega]

end Commas

end Libdank.PortSet
