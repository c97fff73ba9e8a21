import Libdank.Foundation.Transitions

/-! Windows on a mapped object, after `utils/mmap.c` and `utils/mmap.h`. Lengths,
addresses and offsets are words of 64 bits; an `off_t` is negative where its word
is 2^63 or more. What the system answers is given with each call. -/
namespace Libdank.MmapWindow

structure Window where
  mapbase : ℕ
  maplen : ℕ
  mapoff : ℕ
deriving DecidableEq, Repr

def word (n : ℕ) : ℕ := n % 2 ^ 64

def wordSub (a b : ℕ) : ℕ := word (a + (2 ^ 64 - word b))

/-- What the system calls of one operation answer: whether `ftruncate` and
`munmap` are able to, and where `mmap` or `mremap` map, if they do. -/
structure Answers where
  truncated : Bool
  unmapped : Bool
  address : Option ℕ
deriving DecidableEq, Repr

/-- Nothing of length 0 is mapped, nothing at address 0, and nothing beyond the
lower half of the address space. -/
def mremap (answer : Option ℕ) (len : ℕ) : Option ℕ :=
  answer.filter fun addr => 0 < addr ∧ 0 < len ∧ addr + len < 2 ^ 63

/-- A file is not mapped from a negative offset. -/
def mmap (answer : Option ℕ) (fd : ℤ) (len off : ℕ) : Option ℕ :=
  if 0 ≤ fd ∧ 2 ^ 63 ≤ off then none else mremap answer len

def mapFailed : ℕ := 2 ^ 64 - 1

variable (a : Answers) (mw : Window)

def initializeMmapWindow (fd : ℤ) (len : ℕ) : Bool × Window :=
  match mmap a.address fd len 0 with
  | none => (false, { mw with mapbase := mapFailed })
  | some mapbase => (true, ⟨mapbase, len, 0⟩)

def shrinkMmapWindow (shrink : ℕ) : Bool × Window :=
  if shrink = 0 ∨ mw.maplen ≤ shrink then (false, mw)
  else if a.unmapped then
    (true, ⟨word (mw.mapbase + shrink), mw.maplen - shrink, word (mw.mapoff + shrink)⟩)
  else (false, mw)

def trimMmapWindow (shrink : ℕ) : Bool × Window :=
  if shrink = 0 ∨ mw.maplen ≤ shrink then (false, mw)
  else if a.unmapped then (true, { mw with maplen := mw.maplen - shrink })
  else (false, mw)

def extendMmapWindow (extend : ℕ) : Bool × Window :=
  if extend = 0 then (false, mw)
  else
    match mremap a.address (word (mw.maplen + extend)) with
    | none => (false, mw)
    | some tmp => (true, { mw with mapbase := tmp, maplen := word (mw.maplen + extend) })

def slideMmapWindow (fd : ℤ) (delta : ℕ) : Bool × Window :=
  if delta = 0 ∨ mw.maplen = 0 then (false, mw)
  else if mmap a.address fd mw.maplen (word (mw.mapoff + delta)) ≠ some mw.mapbase then (false, mw)
  else (true, { mw with mapoff := word (mw.mapoff + delta) })

def resetMmapWindow (fd : ℤ) : Bool × Window :=
  if mw.maplen = 0 then (false, mw)
  else if 0 ≤ fd ∧ mmap a.address fd mw.maplen 0 ≠ some mw.mapbase then (false, mw)
  else (true, { mw with mapoff := 0 })

def mmapWindowTotallen : ℕ := word (mw.mapoff + mw.maplen)

def accepts (off : ℕ) : Prop := ¬ (off < mw.mapoff ∨ mw.maplen < off - mw.mapoff)

instance (off : ℕ) : Decidable (accepts mw off) := inferInstanceAs (Decidable (¬ _))

/-- 0 for NULL. -/
def mmapWindowPtrto (off : ℕ) : ℕ :=
  if accepts mw off then word (mw.mapbase + (off - mw.mapoff)) else 0

/-- 0 for NULL. -/
def mmapWindowConstPtrto (off : ℕ) : ℕ :=
  if accepts mw off then word (mw.mapbase + (off - mw.mapoff)) else 0

/-- The address that is read, if any, and the result. A `char` is signed. -/
def mmapWindowCharat (memory : ℕ → BitVec 8) (off : ℕ) : Option ℕ × ℤ :=
  if accepts mw off then
    let address := word (mw.mapbase + (off - mw.mapoff))
    (some address, (memory address).toInt)
  else (none, -1)

inductive Op where
  | initializeWindow (len : ℕ)
  | shrink (delta : ℕ)
  | trim (delta : ℕ)
  | extend (delta : ℕ)
  | slide (delta : ℕ)
  | reset
deriving DecidableEq, Repr

structure Call where
  op : Op
  fd : ℤ
  prot : ℕ
  answers : Answers
deriving DecidableEq, Repr

def succeeded {σ : Type} (result : Bool × σ) : Option σ := if result.1 then some result.2 else none

def windowStep (mw : Window) (c : Call) : Option Window :=
  succeeded <|
    match c.op with
    | .initializeWindow len => initializeMmapWindow c.answers mw c.fd len
    | .shrink delta => shrinkMmapWindow c.answers mw delta
    | .trim delta => trimMmapWindow c.answers mw delta
    | .extend delta => extendMmapWindow c.answers mw delta
    | .slide delta => slideMmapWindow c.answers mw c.fd delta
    | .reset => resetMmapWindow c.answers mw c.fd

inductive Moves (fd : ℤ) (mw : Window) : Op → Window → Prop
  | initializes {len mapbase : ℕ} (mapped : 0 < mapbase ∧ 0 < len ∧ mapbase + len < 2 ^ 63) :
      Moves fd mw (.initializeWindow len) ⟨mapbase, len, 0⟩
  | shrink {delta : ℕ} (pos : 0 < delta) (less : delta < mw.maplen) :
      Moves fd mw (.shrink delta)
        ⟨word (mw.mapbase + delta), mw.maplen - delta, word (mw.mapoff + delta)⟩
  | trim {delta : ℕ} (pos : 0 < delta) (less : delta < mw.maplen) :
      Moves fd mw (.trim delta) { mw with maplen := mw.maplen - delta }
  | extend {delta tmp : ℕ} (mapped : 0 < tmp ∧ 0 < word (mw.maplen + delta) ∧
        tmp + word (mw.maplen + delta) < 2 ^ 63) :
      Moves fd mw (.extend delta) { mw with mapbase := tmp, maplen := word (mw.maplen + delta) }
  | slide {delta : ℕ} (inside : 0 ≤ fd → word (mw.mapoff + delta) < 2 ^ 63) :
      Moves fd mw (.slide delta) { mw with mapoff := word (mw.mapoff + delta) }
  | reset : Moves fd mw .reset { mw with mapoff := 0 }

variable {a mw}

theorem mremap_some {answer : Option ℕ} {len addr : ℕ} (mapped : mremap answer len = some addr) :
    0 < addr ∧ 0 < len ∧ addr + len < 2 ^ 63 := by
  simpa using (Option.filter_eq_some_iff.mp mapped).2

theorem mmap_some {answer : Option ℕ} {fd : ℤ} {len off addr : ℕ}
    (mapped : mmap answer fd len off = some addr) :
    (0 ≤ fd → off < 2 ^ 63) ∧ 0 < addr ∧ 0 < len ∧ addr + len < 2 ^ 63 := by
  unfold mmap at mapped
  split at mapped
  · simp at mapped
  · exact ⟨by omega, mremap_some mapped⟩

theorem succeeded_some {σ : Type} {result : Bool × σ} {s : σ} :
    succeeded result = some s ↔ result = (true, s) := by
  obtain ⟨ok, t⟩ := result
  cases ok <;> simp [succeeded]

theorem initializeMmapWindow_moves {fd : ℤ} {len : ℕ} {mw' : Window}
    (done : initializeMmapWindow a mw fd len = (true, mw')) : Moves fd mw (.initializeWindow len) mw' := by
  unfold initializeMmapWindow at done
  split at done
  · simp at done
  · rename_i mapped
    obtain rfl := (Prod.mk.inj done).2
    exact .initializes (mmap_some mapped).2

theorem shrinkMmapWindow_moves {fd : ℤ} {delta : ℕ} {mw' : Window}
    (done : shrinkMmapWindow a mw delta = (true, mw')) : Moves fd mw (.shrink delta) mw' := by
  unfold shrinkMmapWindow at done
  split_ifs at done with invalid able
  · simp at done
  · obtain rfl := (Prod.mk.inj done).2
    exact .shrink (by omega) (by omega)
  · simp at done

theorem trimMmapWindow_moves {fd : ℤ} {delta : ℕ} {mw' : Window}
    (done : trimMmapWindow a mw delta = (true, mw')) : Moves fd mw (.trim delta) mw' := by
  unfold trimMmapWindow at done
  split_ifs at done with invalid able
  · simp at done
  · obtain rfl := (Prod.mk.inj done).2
    exact .trim (by omega) (by omega)
  · simp at done

theorem extendMmapWindow_moves {fd : ℤ} {delta : ℕ} {mw' : Window}
    (done : extendMmapWindow a mw delta = (true, mw')) : Moves fd mw (.extend delta) mw' := by
  unfold extendMmapWindow at done
  split_ifs at done
  · simp at done
  · split at done
    · simp at done
    · rename_i mapped
      obtain rfl := (Prod.mk.inj done).2
      exact .extend (mremap_some mapped)

theorem slideMmapWindow_moves {fd : ℤ} {delta : ℕ} {mw' : Window}
    (done : slideMmapWindow a mw fd delta = (true, mw')) : Moves fd mw (.slide delta) mw' := by
  unfold slideMmapWindow at done
  split_ifs at done with invalid mapped
  · simp at done
  · simp at done
  · obtain rfl := (Prod.mk.inj done).2
    exact .slide (mmap_some (not_not.mp mapped)).1

theorem resetMmapWindow_moves {fd : ℤ} {mw' : Window}
    (done : resetMmapWindow a mw fd = (true, mw')) : Moves fd mw .reset mw' := by
  unfold resetMmapWindow at done
  split_ifs at done
  · simp at done
  · simp at done
  · obtain rfl := (Prod.mk.inj done).2
    exact .reset

theorem windowStep_moves {c : Call} {mw' : Window} (next : windowStep mw c = some mw') :
    Moves c.fd mw c.op mw' := by
  unfold windowStep at next
  have done := succeeded_some.mp next
  cases op : c.op <;> rw [op] at done
  · exact initializeMmapWindow_moves done
  · exact shrinkMmapWindow_moves done
  · exact trimMmapWindow_moves done
  · exact extendMmapWindow_moves done
  · exact slideMmapWindow_moves done
  · exact resetMmapWindow_moves done

end Libdank.MmapWindow
