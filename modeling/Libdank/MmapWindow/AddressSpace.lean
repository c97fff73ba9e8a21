import Libdank.Foundation.Areas
import Libdank.MmapWindow.Accessors

/-! What a window on a file shows, and what it leaves mapped, among the mappings of others. -/
namespace Libdank.MmapWindow
open Transitions Areas

structure Place where
  fd : ℤ
  off : ℕ
deriving DecidableEq, Repr

def fileFrom (fd : ℤ) (off i : ℕ) : Place := ⟨fd, word (off + i)⟩

def pages (page len : ℕ) : ℕ := (len + (page - 1)) / page * page

/-- The address space of the process, and what of it is not the window's. -/
structure Mapped where
  space : Space Place
  others : Space Place
  mw : Window

def windowCall (a : Answers) (mw : Window) (fd : ℤ) : Op → Bool × Window
  | .initializeWindow len => initializeMmapWindow a mw fd len
  | .shrink delta => shrinkMmapWindow a mw delta
  | .trim delta => trimMmapWindow a mw delta
  | .extend delta => extendMmapWindow a mw delta
  | .slide delta => slideMmapWindow a mw fd delta
  | .reset => resetMmapWindow a mw fd

/-- What the system call of an operation that returns 0 makes of the address space, the window being
`mw` afterwards. `mmap` takes what is free unless it is told where; `mremap` takes the beginning of a
page, and goes on in the object that is mapped there. -/
def Mapped.mapCall (s : Mapped) (fd : ℤ) (page : ℕ) (mw : Window) : Op → Option (Space Place)
  | .initializeWindow len =>
    if page ∣ mw.mapbase ∧ free s.space mw.mapbase (pages page len) then
      some (install s.space mw.mapbase (pages page len) (fileFrom fd 0))
    else none
  | .shrink delta => some (clear s.space s.mw.mapbase (pages page delta))
  | .trim delta => some (clear s.space (s.mw.mapbase + (s.mw.maplen - delta)) (pages page delta))
  | .extend _ =>
    (s.space s.mw.mapbase).bind fun place =>
      let rest := clear s.space s.mw.mapbase (pages page s.mw.maplen)
      if page ∣ s.mw.mapbase ∧ free rest mw.mapbase (pages page mw.maplen) then
        some (install rest mw.mapbase (pages page mw.maplen) (fileFrom place.fd place.off))
      else none
  | .slide _ => some (install s.space s.mw.mapbase (pages page s.mw.maplen) (fileFrom fd mw.mapoff))
  | .reset =>
    if 0 ≤ fd then some (install s.space s.mw.mapbase (pages page s.mw.maplen) (fileFrom fd 0))
    else some s.space

def Op.fixed (fd : ℤ) (mw : Window) : Op → Bool
  | .slide delta => delta ≠ 0 && mw.maplen ≠ 0
  | .reset => mw.maplen ≠ 0 && 0 ≤ fd
  | _ => false

/-- What is left where the call fails: `mmap` may have unmapped any part of the area before. -/
def Mapped.undone (s : Mapped) (fd : ℤ) (page : ℕ) (op : Op) (lost : List ℕ) : Space Place := fun p =>
  if op.fixed fd s.mw = true ∧ p ∈ lost ∧ InArea s.mw.mapbase (pages page s.mw.maplen) p then none
  else s.space p

inductive Move where
  /-- One that fails may lose the mappings at some addresses. -/
  | call (op : Op) (a : Answers) (lost : List ℕ)
  /-- `release_mmap_window` -/
  | release (unmapped : Bool)
  /-- Another part of the program maps or unmaps something. -/
  | elsewhere (addr : ℕ) (place : Option Place)

def Mapped.step (fd : ℤ) (page : ℕ) (s : Mapped) : Move → Option Mapped
  | .call op a lost =>
    let (ok, mw) := windowCall a s.mw fd op
    if ok then (s.mapCall fd page mw op).map fun space => { s with space := space, mw := mw }
    else some { s with space := s.undone fd page op lost, mw := mw }
  | .release unmapped =>
    if s.mw.maplen = 0 then some s
    else
      some { s with
        space := if unmapped then clear s.space s.mw.mapbase (pages page s.mw.maplen) else s.space
        mw := ⟨mapFailed, 0, 0⟩ }
  | .elsewhere addr place =>
    if (s.space addr).isSome ∧ (s.others addr).isNone then none
    else
      some { s with
        space := Function.update s.space addr place
        others := Function.update s.others addr place }

def Mapped.closed (others : Space Place) : Mapped := ⟨others, others, ⟨mapFailed, 0, 0⟩⟩

/-- The pointers to offsets inside the window show the file at the offset that was asked for, and
nothing but the window is mapped that others have not mapped. -/
def Shows (fd : ℤ) (s : Mapped) : Prop :=
  (∀ off, s.mw.Inside off → s.space (mmapWindowPtrto s.mw off) = some ⟨fd, word off⟩) ∧
    ∀ p, ¬ InArea s.mw.mapbase s.mw.maplen p → s.space p = s.others p

def Op.Aligned (page : ℕ) : Op → Prop
  | .initializeWindow len => page ∣ len
  | .shrink delta => page ∣ delta
  | .trim delta => page ∣ delta
  | .extend delta => page ∣ delta
  | .slide delta => page ∣ delta
  | .reset => True

def Move.Aligned (page : ℕ) : Move → Prop
  | .call op _ _ => op.Aligned page
  | _ => True

/-- The call fails, and part of the window is no longer mapped. -/
def Mapped.Loses (s : Mapped) (fd : ℤ) (op : Op) (a : Answers) (lost : List ℕ) : Prop :=
  (windowCall a s.mw fd op).1 = false ∧ op.fixed fd s.mw = true ∧
    ∃ p ∈ lost, InArea s.mw.mapbase s.mw.maplen p

instance (s : Mapped) (fd : ℤ) (op : Op) (a : Answers) (lost : List ℕ) :
    Decidable (s.Loses fd op a lost) := inferInstanceAs (Decidable (_ ∧ _ ∧ _))

/-- No window is made in place of an open one, a call that fails has not lost a part of the window,
and `munmap` is able to unmap one that is released. -/
def Careful (fd : ℤ) (s : Mapped) : Move → Prop
  | .call (.initializeWindow _) _ _ => s.mw.maplen = 0
  | .call op a lost => ¬ s.Loses fd op a lost
  | .release unmapped => s.mw.maplen = 0 ∨ unmapped = true
  | .elsewhere _ _ => True

instance decidableCareful (fd : ℤ) (s : Mapped) : (m : Move) → Decidable (Careful fd s m)
  | .call (.initializeWindow _) _ _ => inferInstanceAs (Decidable (s.mw.maplen = 0))
  | .call (.shrink delta) a lost => inferInstanceAs (Decidable (¬ s.Loses fd (.shrink delta) a lost))
  | .call (.trim delta) a lost => inferInstanceAs (Decidable (¬ s.Loses fd (.trim delta) a lost))
  | .call (.extend delta) a lost => inferInstanceAs (Decidable (¬ s.Loses fd (.extend delta) a lost))
  | .call (.slide delta) a lost => inferInstanceAs (Decidable (¬ s.Loses fd (.slide delta) a lost))
  | .call .reset a lost => inferInstanceAs (Decidable (¬ s.Loses fd .reset a lost))
  | .release unmapped => inferInstanceAs (Decidable (s.mw.maplen = 0 ∨ unmapped = true))
  | .elsewhere _ _ => inferInstanceAs (Decidable True)

theorem pages_eq {page len : ℕ} (pos : 0 < page) (whole : page ∣ len) : pages page len = len := by
  obtain ⟨n, rfl⟩ := whole
  have div : (page * n + (page - 1)) / page = n := by
    rw [Nat.add_comm, Nat.add_mul_div_left _ _ pos, Nat.div_eq_of_lt (by omega), Nat.zero_add]
  rw [pages, div, Nat.mul_comm]

theorem fileFrom_add (fd : ℤ) (off k : ℕ) :
    (fun i => fileFrom fd off (k + i)) = fileFrom fd (word (off + k)) := by
  funext i
  simp only [fileFrom, word, Nat.mod_add_mod, Nat.add_assoc]

/-- What every run keeps: the window's area is its own and shows the file. -/
structure Held (fd : ℤ) (page : ℕ) (s : Mapped) : Prop where
  owns : Owns s.space s.others s.mw.mapbase s.mw.maplen (fileFrom fd s.mw.mapoff)
  whole : page ∣ s.mw.maplen
  placed : 0 < s.mw.maplen → s.mw.Placed
  shut : s.mw.maplen = 0 → s.mw.mapbase = mapFailed

variable {fd : ℤ} {page : ℕ} {s s' : Mapped}

theorem ptrto_inside (held : Held fd page s) {off : ℕ} (inside : s.mw.Inside off) :
    mmapWindowPtrto s.mw off = s.mw.mapbase + (off - s.mw.mapoff) := by
  have placed : s.mw.Placed := held.placed (by unfold Window.Inside at inside; omega)
  have accepted : accepts s.mw off := (accepts_iff s.mw off).mpr (.inl inside)
  rw [mmapWindowPtrto, if_pos accepted, address_accepted placed accepted]

theorem held_shows (held : Held fd page s) : Shows fd s := by
  refine ⟨fun off inside => ?_, fun p out => held.owns.outside out⟩
  rw [ptrto_inside held inside,
    held.owns.inside (by unfold InArea; unfold Window.Inside at inside; omega), fileFrom]
  have same : s.mw.mapoff + (s.mw.mapbase + (off - s.mw.mapoff) - s.mw.mapbase) = off := by
    unfold Window.Inside at inside
    omega
  rw [same]

theorem windowCall_moves {a : Answers} {mw mw' : Window} {op : Op}
    (done : windowCall a mw fd op = (true, mw')) : Moves fd mw op mw' :=
  windowStep_moves (c := ⟨op, fd, 0, a⟩) (succeeded_some.mpr done)

theorem windowCall_failed {a : Answers} {mw mw' : Window} {op : Op}
    (failed : windowCall a mw fd op = (false, mw')) :
    mw' = mw ∨ (∃ len, op = .initializeWindow len) ∧ mw' = { mw with mapbase := mapFailed } := by
  cases op with
  | initializeWindow len =>
    simp only [windowCall, initializeMmapWindow] at failed
    split at failed
    · exact .inr ⟨⟨len, rfl⟩, (Prod.mk.inj failed).2.symm⟩
    · simp at failed
  | shrink delta =>
    simp only [windowCall, shrinkMmapWindow] at failed
    split_ifs at failed <;> simp_all
  | trim delta =>
    simp only [windowCall, trimMmapWindow] at failed
    split_ifs at failed <;> simp_all
  | extend delta =>
    simp only [windowCall, extendMmapWindow] at failed
    split_ifs at failed
    · simp_all
    · split at failed <;> simp_all
  | slide delta =>
    simp only [windowCall, slideMmapWindow] at failed
    split_ifs at failed <;> simp_all
  | reset =>
    simp only [windowCall, resetMmapWindow] at failed
    split_ifs at failed <;> simp_all

theorem undone_eq (pos : 0 < page) (whole : page ∣ s.mw.maplen) {op : Op} {lost : List ℕ}
    (none_ : op.fixed fd s.mw = true → ∀ p ∈ lost, ¬ InArea s.mw.mapbase s.mw.maplen p) :
    s.undone fd page op lost = s.space := by
  funext p
  refine if_neg ?_
  rw [pages_eq pos whole]
  exact fun both => none_ both.1 p both.2.1 both.2.2

theorem whole_word {len : ℕ} (divides : page ∣ 2 ^ 64) (whole : page ∣ len) : page ∣ word len :=
  (Nat.dvd_mod_iff divides).mpr whole

theorem not_dvd_mapFailed (many : 1 < page) (divides : page ∣ 2 ^ 64) : ¬ page ∣ mapFailed := by
  intro last
  have one : page ∣ 2 ^ 64 - mapFailed := Nat.dvd_sub divides last
  have := Nat.dvd_one.mp (show page ∣ 1 from one)
  omega

theorem mapCall_held (file : 0 ≤ fd) (many : 1 < page) (divides : page ∣ 2 ^ 64)
    (held : Held fd page s) {op : Op} (aligned : op.Aligned page) {mw : Window} (moves : Moves fd s.mw op mw)
    (careful : (∃ len, op = .initializeWindow len) → s.mw.maplen = 0) {space : Space Place}
    (mapped : s.mapCall fd page mw op = some space) : Held fd page { s with space := space, mw := mw } := by
  have pos : 0 < page := by omega
  have same := pages_eq pos held.whole
  have after : s.mw.Placed → mw.Placed := fun placed => moves_placed moves (.inl placed)
  cases moves with
  | @initializes len mapbase mapped' =>
    simp only [Mapped.mapCall, pages_eq pos aligned, Option.ite_none_right_eq_some] at mapped
    obtain ⟨⟨-, room⟩, mapped⟩ := mapped
    obtain rfl := Option.some.inj mapped
    have owns := held.owns
    rw [careful ⟨len, rfl⟩] at owns
    have rest : clear s.space s.mw.mapbase 0 = s.space :=
      funext fun p => if_neg fun inside => by unfold InArea at inside; omega
    have moved := owns.move (fileFrom fd 0) (rest.symm ▸ room)
    rw [rest] at moved
    exact ⟨moved, aligned, fun _ => ⟨mapped'.1, mapped'.2.2⟩, fun none_ => by simp only at none_; omega⟩
  | @shrink delta some_ less =>
    have owns := held.owns.clear_front less.le
    have base : word (s.mw.mapbase + delta) = s.mw.mapbase + delta := by
      have placed := (held.placed (by omega)).2
      exact Nat.mod_eq_of_lt (by omega)
    rw [fileFrom_add, ← base] at owns
    rw [Mapped.mapCall, pages_eq pos aligned] at mapped
    obtain rfl := Option.some.inj mapped
    exact ⟨owns, Nat.dvd_sub held.whole aligned, fun _ => after (held.placed (by omega)), fun none_ => by
      simp only at none_; omega⟩
  | @trim delta some_ less =>
    have owns := held.owns.clear_back less.le
    rw [Mapped.mapCall, pages_eq pos aligned] at mapped
    obtain rfl := Option.some.inj mapped
    exact ⟨owns, Nat.dvd_sub held.whole aligned, fun _ => after (held.placed (by omega)), fun none_ => by
      simp only at none_; omega⟩
  | @extend delta tmp mapped' =>
    have whole : page ∣ word (s.mw.maplen + delta) := whole_word divides (Nat.dvd_add held.whole aligned)
    obtain ⟨place, shown, mapped⟩ := Option.bind_eq_some_iff.mp mapped
    simp only [same, pages_eq pos whole, Option.ite_none_right_eq_some] at mapped
    obtain ⟨⟨begins, room⟩, mapped⟩ := mapped
    obtain rfl := Option.some.inj mapped
    have open_ : 0 < s.mw.maplen := by
      by_contra none_
      rw [held.shut (by omega)] at begins
      exact not_dvd_mapFailed many divides begins
    have inside : InArea s.mw.mapbase s.mw.maplen s.mw.mapbase := ⟨le_rfl, by omega⟩
    rw [held.owns.inside inside, Nat.sub_self] at shown
    have content : fileFrom place.fd place.off = fileFrom fd s.mw.mapoff := by
      obtain rfl := Option.some.inj shown
      exact (fileFrom_add fd s.mw.mapoff 0).symm.trans (by simp only [Nat.zero_add])
    rw [content]
    exact ⟨held.owns.move _ room, whole, fun _ => ⟨mapped'.1, mapped'.2.2⟩, fun none_ => by
      simp only at none_; omega⟩
  | @slide delta inside =>
    rw [Mapped.mapCall, same] at mapped
    obtain rfl := Option.some.inj mapped
    exact ⟨held.owns.replace _, held.whole, held.placed, held.shut⟩
  | reset =>
    rw [Mapped.mapCall, if_pos file, same] at mapped
    obtain rfl := Option.some.inj mapped
    exact ⟨held.owns.replace _, held.whole, held.placed, held.shut⟩

theorem step_held (file : 0 ≤ fd) (many : 1 < page) (divides : page ∣ 2 ^ 64) (held : Held fd page s)
    {m : Move} (aligned : m.Aligned page) (careful : Careful fd s m) (next : s.step fd page m = some s') :
    Held fd page s' := by
  cases m with
  | call op a lost =>
    simp only [Mapped.step] at next
    have careful' : (∃ len, op = .initializeWindow len) → s.mw.maplen = 0 := by
      rintro ⟨len, rfl⟩
      exact careful
    rcases result : windowCall a s.mw fd op with ⟨ok, mw⟩
    rw [result] at next
    cases ok with
    | true =>
      obtain ⟨space, mapped, rfl⟩ := Option.map_eq_some_iff.mp next
      exact mapCall_held file many divides held aligned (windowCall_moves result) careful' mapped
    | false =>
      have kept : s.undone fd page op lost = s.space := by
        refine undone_eq (by omega) held.whole fun fixed p mem inside => ?_
        have loses : s.Loses fd op a lost := ⟨by rw [result], fixed, p, mem, inside⟩
        cases op with
        | initializeWindow => exact Bool.false_ne_true fixed
        | _ => exact careful loses
      rw [kept] at next
      obtain rfl := Option.some.inj next
      obtain rfl | ⟨opens, rfl⟩ := windowCall_failed result
      · exact held
      · have shut := careful' opens
        have owns := held.owns
        rw [shut] at owns
        refine ⟨?_, held.whole, fun open_ => by simp only at open_; omega, fun _ => rfl⟩
        simp only [shut, owns.eq_others]
        exact owns_nothing _ _ _
  | release unmapped =>
    by_cases shut : s.mw.maplen = 0
    · rw [Mapped.step, if_pos shut] at next
      exact Option.some.inj next ▸ held
    · obtain rfl : unmapped = true := careful.resolve_left shut
      rw [Mapped.step, if_neg shut, if_pos rfl, pages_eq (by omega) held.whole] at next
      obtain rfl := Option.some.inj next
      have owns := held.owns.clear_front le_rfl
      rw [Nat.sub_self] at owns
      refine ⟨?_, dvd_zero page, fun open_ => by simp at open_, fun _ => rfl⟩
      simp only [owns.eq_others]
      exact owns_nothing _ _ _
  | elsewhere addr place =>
    rw [Mapped.step] at next
    split at next
    · cases next
    · rename_i theirs
      obtain rfl := Option.some.inj next
      have out : ¬ InArea s.mw.mapbase s.mw.maplen addr := by
        intro inside
        refine theirs ⟨?_, ?_⟩
        · rw [held.owns.inside inside]
          rfl
        · rw [held.owns.apart addr inside]
          rfl
      exact ⟨held.owns.elsewhere out place, held.whole, held.placed, held.shut⟩

theorem not_shows (held : Held fd page s) (open_ : 0 < s.mw.maplen)
    (left : s'.space s.mw.mapbase = s.space s.mw.mapbase) (others : s'.others = s.others)
    (out : ¬ InArea s'.mw.mapbase s'.mw.maplen s.mw.mapbase) : ¬ Shows fd s' := by
  intro shows_
  have inside : InArea s.mw.mapbase s.mw.maplen s.mw.mapbase := ⟨le_rfl, by omega⟩
  have nobody := shows_.2 s.mw.mapbase out
  rw [left, others, held.owns.inside inside, held.owns.apart _ inside] at nobody
  cases nobody

theorem lost_not_shows (pos : 0 < page) (held : Held fd page s) {op : Op} {a : Answers} {lost : List ℕ}
    (loses : s.Loses fd op a lost) (kept : ¬ ∃ len, op = .initializeWindow len)
    (next : s.step fd page (.call op a lost) = some s') : ¬ Shows fd s' := by
  obtain ⟨failed, fixed, p, mem, inside⟩ := loses
  simp only [Mapped.step] at next
  rcases result : windowCall a s.mw fd op with ⟨ok, mw⟩
  rw [result] at next failed
  obtain rfl : ok = false := failed
  obtain rfl : mw = s.mw := (windowCall_failed result).resolve_right fun opens => kept opens.1
  obtain rfl := Option.some.inj next
  intro shows_
  have there : s.mw.Inside (s.mw.mapoff + (p - s.mw.mapbase)) := by
    unfold Window.Inside
    unfold InArea at inside
    omega
  have address : s.mw.mapbase + (s.mw.mapoff + (p - s.mw.mapbase) - s.mw.mapoff) = p := by
    unfold InArea at inside
    omega
  have shown := shows_.1 _ there
  have gone : s.undone fd page op lost p = none := if_pos ⟨fixed, mem, by rwa [pages_eq pos held.whole]⟩
  rw [ptrto_inside held there, address] at shown
  cases gone.symm.trans shown

theorem careless {m : Move} (pos : 0 < page) (held : Held fd page s) (aligned : m.Aligned page)
    (careless_ : ¬ Careful fd s m) (next : s.step fd page m = some s') : ¬ Shows fd s' := by
  cases m with
  | call op a lost =>
    cases op with
    | initializeWindow len =>
      have open_ : 0 < s.mw.maplen := Nat.pos_of_ne_zero careless_
      simp only [Mapped.step] at next
      rcases result : windowCall a s.mw fd (.initializeWindow len) with ⟨ok, mw⟩
      rw [result] at next
      cases ok with
      | true =>
        have opened := windowCall_moves result
        obtain ⟨space, mapped, rfl⟩ := Option.map_eq_some_iff.mp next
        cases opened
        simp only [Mapped.mapCall, pages_eq pos aligned, Option.ite_none_right_eq_some] at mapped
        obtain ⟨⟨-, room⟩, mapped⟩ := mapped
        obtain rfl := Option.some.inj mapped
        rename_i mapbase _
        have out : ¬ InArea mapbase len s.mw.mapbase := by
          intro inside
          have none_ := free_iff.mp room _ inside
          rw [held.owns.inside ⟨le_rfl, by omega⟩] at none_
          cases none_
        exact not_shows held open_ (if_neg out) rfl out
      | false =>
        have kept : s.undone fd page (.initializeWindow len) lost = s.space :=
          undone_eq pos held.whole fun fixed => absurd fixed Bool.false_ne_true
        rw [kept] at next
        obtain rfl := Option.some.inj next
        have placed := (held.placed open_).2
        refine not_shows held open_ rfl rfl ?_
        obtain rfl | ⟨-, rfl⟩ := windowCall_failed result
        · simp only [windowCall, initializeMmapWindow] at result
          split at result
          · have base := congrArg Window.mapbase (Prod.mk.inj result).2
            simp only [mapFailed] at base
            omega
          · simp at result
        · simp only [InArea, mapFailed]
          omega
    | _ => exact lost_not_shows pos held (not_not.mp careless_) (by simp) next
  | release unmapped =>
    rw [Careful, not_or, Bool.not_eq_true] at careless_
    obtain ⟨open_, rfl⟩ := careless_
    rw [Mapped.step, if_neg open_] at next
    obtain rfl := Option.some.inj next
    refine not_shows held (Nat.pos_of_ne_zero open_) rfl rfl ?_
    simp only [InArea]
    omega
  | elsewhere addr place => exact absurd trivial careless_

/-- In every run over one file, calls of the system failing as they like and others mapping what
they like in between, the pointers to offsets inside the window show the file there and nothing is
left mapped but the window, just when no open window is initialized again, none loses a part to a
call that fails, and none is released that cannot be unmapped. -/
theorem window_shows_file (file : 0 ≤ fd) (many : 1 < page) (divides : page ∣ 2 ^ 64)
    (others : Space Place) (moves : List Move) (aligned : ∀ m ∈ moves, m.Aligned page)
    (taken : (run (Mapped.step fd page) (.closed others) moves).isSome) :
    Along (Mapped.step fd page) (fun s m => ∀ s', s.step fd page m = some s' → Shows fd s')
        (.closed others) moves ↔
      Along (Mapped.step fd page) (Careful fd) (.closed others) moves := by
  have start : Held fd page (.closed others) :=
    ⟨owns_nothing _ _ _, dvd_zero page, fun open_ => by simp [Mapped.closed] at open_, fun _ => rfl⟩
  generalize Mapped.closed others = s at start taken
  induction moves generalizing s with
  | nil => exact Iff.rfl
  | cons m rest ih =>
    have here := aligned m List.mem_cons_self
    have later := fun m' mem => aligned m' (List.mem_cons_of_mem m mem)
    rw [run] at taken
    rw [Along, Along]
    cases next : s.step fd page m with
    | none => simp [next] at taken
    | some s' =>
      rw [next, Option.bind_some] at taken
      by_cases careful : Careful fd s m
      · have held := step_held file many divides start here careful next
        refine and_congr (iff_of_true (fun t same => ?_) careful) (ih later s' held taken)
        exact Option.some.inj same ▸ held_shows held
      · refine iff_of_false (fun both => ?_) fun both => careful both.1
        exact careless (by omega) start here careful next (both.1 s' rfl)

def slidMoves : List Move :=
  [.call (.initializeWindow 4) ⟨true, true, some 8⟩ [], .elsewhere 7 (some ⟨5, 0⟩),
    .call (.slide 2) ⟨true, true, none⟩ [7], .call (.slide 2) ⟨true, true, some 8⟩ [],
    .call (.shrink 2) ⟨true, true, none⟩ [], .call (.extend 4) ⟨true, true, some 20⟩ [], .release true]

theorem window_shows_file_slid :
    Along (Mapped.step 3 2) (fun s m => ∀ s', s.step 3 2 m = some s' → Shows 3 s')
      (.closed fun _ => none) slidMoves :=
  (window_shows_file (by decide) (by decide) (by decide) _ slidMoves
    (by simp [slidMoves, Move.Aligned, Op.Aligned]) (by decide +kernel)).mpr
    (by decide +kernel)

end Libdank.MmapWindow
