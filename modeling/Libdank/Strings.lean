import Libdank.Foundation.Requests

/-! The bounded searches of `utils/string.c`. A haystack is what memory holds from
a pointer on, whether a NUL comes or not; a needle is the list of its bytes up to
the NUL. Every offset of the haystack that is looked at is recorded. -/
namespace Libdank.Strings
open Requests

abbrev Reads := StateM (List ℕ)

def tolower (c : UInt8) : UInt8 := if 65 ≤ c ∧ c ≤ 90 then c + 32 else c

variable (fold : UInt8 → UInt8) (hay : ℕ → UInt8) (needle : List UInt8)

def readByte (h : ℕ) : Reads UInt8 := do
  modify (h :: ·)
  pure (hay h)

/-- The loop at `haystack`, with `matched` bytes of the needle behind it and `len`
bytes left to look at. A mismatch gives the matched ones back. -/
def searchLoop (haystack matched len : ℕ) : Reads (Option ℕ) :=
  if more : matched < needle.length then
    if len = 0 then pure none
    else do
      let c ← readByte hay (haystack + matched)
      if c = 0 then pure none
      else if fold c ≠ fold needle[matched] then
        searchLoop (haystack + 1) 0 (len - 1 + matched)
      else searchLoop haystack (matched + 1) (len - 1)
  else pure (some haystack)
termination_by (len + matched, needle.length - matched)
decreasing_by
  · exact Prod.Lex.left _ _ (by omega)
  · rw [show len - 1 + (matched + 1) = len + matched by omega]
    exact Prod.Lex.right _ (by omega)

def strnstr (len : ℕ) : Reads (Option ℕ) := searchLoop id hay needle 0 0 len

def strncasestr (len : ℕ) : Reads (Option ℕ) := searchLoop tolower hay needle 0 0 len

/-- The needle lies at `i`, within the first `len` bytes and in front of any NUL. -/
structure Occurs (len i : ℕ) : Prop where
  within : i + needle.length ≤ len
  live : ∀ j < i + needle.length, hay j ≠ 0
  same : ∀ j, (inside : j < needle.length) → fold (hay (i + j)) = fold needle[j]

def First (len : ℕ) : Option ℕ → Prop
  | none => ∀ i, ¬ Occurs fold hay needle len i
  | some i => Occurs fold hay needle len i ∧ ∀ j < i, ¬ Occurs fold hay needle len j

def Within (len : ℕ) (reads : List ℕ) : Prop := ∀ r ∈ reads, r < len ∧ ∀ j < r, hay j ≠ 0

structure Searching (len haystack matched left : ℕ) : Prop where
  budget : haystack + matched + left = len
  inside : matched ≤ needle.length
  live : ∀ j < haystack + matched, hay j ≠ 0
  same : ∀ j, (inside : j < needle.length) → j < matched → fold (hay (haystack + j)) = fold needle[j]
  passed : ∀ i < haystack, ¬ Occurs fold hay needle len i

variable {fold hay needle} {len haystack matched left : ℕ}

theorem Searching.found (at_ : Searching fold hay needle len haystack matched left)
    (all : ¬ matched < needle.length) : First fold hay needle len (some haystack) := by
  obtain rfl : matched = needle.length := le_antisymm at_.inside (not_lt.mp all)
  have budget := at_.budget
  exact ⟨⟨by omega, at_.live, fun j inside => at_.same j inside inside⟩, at_.passed⟩

theorem Searching.missed (at_ : Searching fold hay needle len haystack matched left)
    (more : matched < needle.length) (stuck : left = 0 ∨ hay (haystack + matched) = 0) :
    First fold hay needle len none := by
  intro i occurs
  have budget := at_.budget
  have later : haystack ≤ i := by
    by_contra early
    exact at_.passed i (not_le.mp early) occurs
  rcases stuck with none_ | nul
  · have within := occurs.within
    omega
  · exact occurs.live (haystack + matched) (by omega) nul

theorem Searching.mismatch (at_ : Searching fold hay needle len haystack matched left)
    (more : matched < needle.length) (some_ : left ≠ 0) (live : hay (haystack + matched) ≠ 0)
    (other : fold (hay (haystack + matched)) ≠ fold needle[matched]) :
    Searching fold hay needle len (haystack + 1) 0 (left - 1 + matched) where
  budget := by
    have budget := at_.budget
    omega
  inside := Nat.zero_le _
  live j before := by
    rcases Nat.lt_or_ge j (haystack + matched) with early | late
    · exact at_.live j early
    · obtain rfl : matched = 0 := by omega
      obtain rfl : j = haystack := by omega
      exact live
  same j _ none_ := absurd none_ (Nat.not_lt_zero j)
  passed i before occurs := by
    rcases Nat.lt_or_ge i haystack with early | late
    · exact at_.passed i early occurs
    · obtain rfl : i = haystack := by omega
      exact other (occurs.same matched more)

theorem Searching.step (at_ : Searching fold hay needle len haystack matched left)
    (more : matched < needle.length) (some_ : left ≠ 0) (live : hay (haystack + matched) ≠ 0)
    (same : fold (hay (haystack + matched)) = fold needle[matched]) :
    Searching fold hay needle len haystack (matched + 1) (left - 1) where
  budget := by
    have budget := at_.budget
    omega
  inside := more
  live j before := by
    rcases Nat.lt_or_eq_of_le (Nat.le_of_lt_succ before) with early | rfl
    · exact at_.live j early
    · exact live
  same j inside before := by
    rcases Nat.lt_or_eq_of_le (Nat.le_of_lt_succ before) with early | rfl
    · exact at_.same j inside early
    · exact same
  passed := at_.passed

theorem readByte_within (at_ : Searching fold hay needle len haystack matched left) (some_ : left ≠ 0) :
    Ensures (Within hay len) (readByte hay (haystack + matched))
      (fun c reads => c = hay (haystack + matched) ∧ Within hay len reads) := by
  refine fun reads within => ⟨rfl, fun r hr => ?_⟩
  rcases List.mem_cons.mp hr with rfl | hr
  · have budget := at_.budget
    exact ⟨by omega, at_.live⟩
  · exact within r hr

theorem searchLoop_spec (at_ : Searching fold hay needle len haystack matched left) :
    Ensures (Within hay len) (searchLoop fold hay needle haystack matched left)
      (fun found reads => First fold hay needle len found ∧ Within hay len reads) := by
  induction haystack, matched, left using searchLoop.induct needle with
  | case1 haystack matched more =>
    rw [searchLoop, dif_pos more, if_pos rfl]
    exact ensures_pure fun reads within => ⟨at_.missed more (.inl rfl), within⟩
  | case2 haystack matched left more some_ mismatch step =>
    rw [searchLoop, dif_pos more, if_neg some_]
    refine ensures_bind (readByte_within at_ some_) fun c reads read => ?_
    obtain ⟨rfl, within⟩ := read
    by_cases nul : hay (haystack + matched) = 0
    · rw [if_pos nul]
      exact ⟨at_.missed more (.inr nul), within⟩
    · rw [if_neg nul]
      by_cases other : fold (hay (haystack + matched)) ≠ fold needle[matched]
      · rw [if_pos other]
        exact mismatch (at_.mismatch more some_ nul other) reads within
      · rw [if_neg other]
        exact step (at_.step more some_ nul (not_not.mp other)) reads within
  | case3 haystack matched left all =>
    rw [searchLoop, dif_neg all]
    exact ensures_pure fun reads within => ⟨at_.found all, within⟩

theorem search_spec (fold : UInt8 → UInt8) (hay : ℕ → UInt8) (needle : List UInt8) (len : ℕ) :
    Ensures (Within hay len) (searchLoop fold hay needle 0 0 len)
      (fun found reads => First fold hay needle len found ∧ Within hay len reads) :=
  searchLoop_spec ⟨by omega, Nat.zero_le _, by simp, by simp, by simp⟩

theorem first_nil (fold : UInt8 → UInt8) (hay : ℕ → UInt8) (len : ℕ) {found : Option ℕ}
    (first : First fold hay [] len found) : found = some 0 := by
  have here : Occurs fold hay [] len 0 := ⟨Nat.zero_le _, by simp, by simp⟩
  cases found with
  | none => exact absurd here (first 0)
  | some i =>
    obtain rfl : i = 0 := by
      by_contra later
      exact first.2 0 (Nat.pos_of_ne_zero later) here
    rfl

/-- Both searches find the first offset where the needle lies, and look at
nothing from `len` on or behind a NUL. -/
theorem searches_exact (hay : ℕ → UInt8) (needle : List UInt8) (len : ℕ) :
    First id hay needle len (strnstr hay needle len []).1 ∧
      Within hay len (strnstr hay needle len []).2 ∧
      First tolower hay needle len (strncasestr hay needle len []).1 ∧
      Within hay len (strncasestr hay needle len []).2 ∧
      (needle = [] → (strnstr hay needle len []).1 = some 0 ∧ (strncasestr hay needle len []).1 = some 0) := by
  obtain ⟨exact_, bounds⟩ := search_spec id hay needle len [] (by simp [Within])
  obtain ⟨nocase, bounds'⟩ := search_spec tolower hay needle len [] (by simp [Within])
  refine ⟨exact_, bounds, nocase, bounds', ?_⟩
  rintro rfl
  exact ⟨first_nil id hay len exact_, first_nil tolower hay len nocase⟩

end Libdank.Strings
