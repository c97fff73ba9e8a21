import Libdank.LineParser.Operations
import Mathlib.Data.List.DropRight

/-! The lines of a text, and where a window that slides along the text leaves
off in the middle of one. -/
namespace Libdank.LineParser

def trim (line : Bytes) : Bytes := line.dropWhile isspace

/-- Lines that are delivered: not empty and not comments. -/
def Kept (line : Bytes) : Prop := line ≠ [] ∧ line.head? ≠ some hash

instance (line : Bytes) : Decidable (Kept line) :=
  inferInstanceAs (Decidable (line ≠ [] ∧ line.head? ≠ some hash))

/-- The segments between newlines, trimmed, as far as they are kept. -/
def keptLines (text : Bytes) : List Bytes :=
  ((text.splitOn newline).map trim).filter fun line => Kept line

def openLine (text : Bytes) : Bytes := trim (text.rtakeWhile (· ≠ newline))

def EndsKept (text : Bytes) (i : ℕ) : Prop :=
  text[i]? = some newline ∧ Kept (openLine (text.take i))

instance (text : Bytes) (i : ℕ) : Decidable (EndsKept text i) :=
  inferInstanceAs (Decidable (text[i]? = some newline ∧ Kept (openLine (text.take i))))

/-- A full window whose open line would be handed out with bytes of the window
after it: the line does not start the window, and the byte as far from the start
of the window as the line is long is not where a line handed out before ended. -/
def Overhang (window : Bytes) : Prop :=
  Kept (openLine window) ∧ (openLine window).length < window.length ∧
    ¬ EndsKept window (openLine window).length

/-- The buffer of `total` bytes starts where `text` does. A window filled by the
very end of the text overhangs: this one, or one of those that follow it, each
starting at the open line of the one before. -/
inductive Stale (bufsiz : ℕ) : ℕ → Bytes → Prop
  | here {total text} (full : text.length = total - 1) (overhang : Overhang text) :
      Stale bufsiz total text
  | later {total text} (more : total - 1 < text.length)
      (next : Stale bufsiz
        (if (openLine (text.take (total - 1))).length = total - 1 then total + bufsiz else total)
        (text.drop (total - 1 - (openLine (text.take (total - 1))).length))) :
      Stale bufsiz total text

theorem isspace_newline : isspace newline = true := by decide

theorem trim_append_space {blank : Bytes} (h : ∀ c ∈ blank, isspace c = true) (rest : Bytes) :
    trim (blank ++ rest) = trim rest :=
  List.dropWhile_append_of_pos h

theorem trim_eq_nil_iff {line : Bytes} : trim line = [] ↔ ∀ c ∈ line, isspace c = true := by
  simp [trim, List.dropWhile_eq_nil_iff]

theorem trim_cons_space {c : UInt8} (blank : isspace c = true) (rest : Bytes) :
    trim (c :: rest) = trim rest := by
  simp [trim, blank]

theorem trim_of_head {c : UInt8} (rest : Bytes) (solid : isspace c = false) :
    trim (c :: rest) = c :: rest := by
  simp [trim, solid]

theorem rtakeWhile_append_of_mem {a b : Bytes} (h : newline ∈ b) :
    (a ++ b).rtakeWhile (· ≠ newline) = b.rtakeWhile (· ≠ newline) := by
  have stops : ¬ (b.reverse.takeWhile (· ≠ newline)).length = b.reverse.length := fun all => by
    have whole := (@List.takeWhile_prefix _ b.reverse (· ≠ newline)).eq_of_length all
    have := List.takeWhile_eq_self_iff.mp whole newline (by simpa using h)
    simp at this
  rw [List.rtakeWhile, List.reverse_append, List.takeWhile_append, if_neg stops]
  rfl

theorem rtakeWhile_append_of_not_mem {a b : Bytes} (h : newline ∉ b) :
    (a ++ b).rtakeWhile (· ≠ newline) = a.rtakeWhile (· ≠ newline) ++ b := by
  have solid : ∀ c ∈ b.reverse, decide (c ≠ newline) = true := fun c mem =>
    decide_eq_true fun same => h (same ▸ List.mem_reverse.mp mem)
  rw [List.rtakeWhile, List.reverse_append, List.takeWhile_append_of_pos solid,
    List.reverse_append, List.reverse_reverse]
  rfl

theorem openLine_append_of_newline {a b : Bytes} (h : newline ∈ b) :
    openLine (a ++ b) = openLine b := by
  rw [openLine, rtakeWhile_append_of_mem h, openLine]

theorem openLine_append {a b : Bytes} (h : newline ∉ b) (shut : openLine a = []) :
    openLine (a ++ b) = trim b := by
  rw [openLine, rtakeWhile_append_of_not_mem h, trim_append_space (trim_eq_nil_iff.mp shut)]

theorem openLine_concat_newline (a : Bytes) : openLine (a ++ [newline]) = [] := by
  simp [openLine, trim]

theorem openLine_append_space {a blank : Bytes} (h : ∀ c ∈ blank, isspace c = true)
    (shut : openLine a = []) : openLine (a ++ blank) = [] := by
  by_cases mem : newline ∈ blank
  · rw [openLine_append_of_newline mem, openLine, trim_eq_nil_iff]
    exact fun c hc => h c ((List.rtakeWhile_suffix _ _).subset hc)
  · rw [openLine_append mem shut, trim_eq_nil_iff]
    exact h

theorem keptLines_line {line : Bytes} (h : newline ∉ line) (rest : Bytes) :
    keptLines (line ++ newline :: rest) =
      (if Kept (trim line) then [trim line] else []) ++ keptLines rest := by
  rw [keptLines, List.splitOn_append_cons_self, List.splitOn_eq_singleton h, List.singleton_append,
    List.map_cons, List.filter_cons]
  by_cases kept : Kept (trim line) <;> simp [kept, keptLines]

theorem keptLines_last {line : Bytes} (h : newline ∉ line) :
    keptLines line = if Kept (trim line) then [trim line] else [] := by
  rw [keptLines, List.splitOn_eq_singleton h, List.map_singleton, List.filter_cons]
  by_cases kept : Kept (trim line) <;> simp [kept]

theorem not_kept_nil : ¬ Kept [] := fun h => h.1 rfl

theorem keptLines_cons_space {c : UInt8} (blank : isspace c = true) (rest : Bytes) :
    keptLines (c :: rest) = keptLines rest := by
  by_cases ends : c = newline
  · subst ends
    have := @keptLines_line [] (by simp) rest
    simpa [trim, not_kept_nil] using this
  · by_cases mem : newline ∈ rest
    · obtain ⟨line, tail, rfl, first⟩ := List.eq_append_cons_of_mem mem
      have longer : newline ∉ c :: line := by simp [first, Ne.symm ends]
      rw [← List.cons_append, keptLines_line longer, keptLines_line first, trim_cons_space blank]
    · have longer : newline ∉ c :: rest := by simp [mem, Ne.symm ends]
      rw [keptLines_last longer, keptLines_last mem, trim_cons_space blank]

end Libdank.LineParser
