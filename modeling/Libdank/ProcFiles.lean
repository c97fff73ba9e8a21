import Mathlib.Data.List.ReduceOption
import Libdank.Lexers.Pointers
import Libdank.LineParser.Callbacks

/-! Values looked for in the files of a mounted `proc`, after `utils/procfs.c`. -/
namespace Libdank.ProcFiles
open LineParser Requests Lexers.Pointers Parse

section Callbacks

def chars (line : Bytes) : Text := line.map fun b => Char.ofNat b.toNat

def taggeduintcb (tag : Bytes) : LineParserCb ℕ := fun val line =>
  if tag <+: line then
    let lexed := lexU .w64 (chars (line.drop tag.length)) val
    (decide (lexed.ret = 0), lexed.val)
  else (true, val)

def matchlinecb (mline : Bytes) : LineParserCb UInt32 := fun matches_ line =>
  if line = mline then (true, matches_ + 1) else (true, matches_)

end Callbacks

structure ProcFile where
  opens : Bool
  closes : Bool
  text : Bytes

section Files
variable {σ : Type} (junk : ℕ → UInt8) (bufsiz calls : ℕ)

def parseProcfileByline (lcb : LineParserCb σ) (f : ProcFile) (arg : σ) : Request (Bool × σ) :=
  if f.opens then do
    let (ok, arg) ← parserByline junk bufsiz lcb calls ⟨f.text, []⟩ arg
    pure (ok && f.closes, arg)
  else pure (false, arg)

def procfileTaggedUint (f : ProcFile) (tag : Bytes) (val : ℕ) : Request (Bool × ℕ) :=
  parseProcfileByline junk bufsiz calls (taggeduintcb tag) f val

def procfileMatchLine (f : ProcFile) (line : Bytes) (matches_ : UInt32) : Request (Bool × UInt32) :=
  parseProcfileByline junk bufsiz calls (matchlinecb line) f matches_

end Files

def number (text : Text) : Option ℕ :=
  if (lexU .w64 text 0).ret = 0 then some (lexU .w64 text 0).val else none

/-- What stands behind the tag in the lines that begin with it, as numbers. -/
def numbers (tag : Bytes) (lines : List Bytes) : List (Option ℕ) :=
  (lines.filter fun line => decide (tag <+: line)).map fun line => number (chars (line.drop tag.length))

theorem lexU_number (text : Text) (val : ℕ) :
    (decide ((lexU .w64 text val).ret = 0), (lexU .w64 text val).val) =
      ((number text).isSome, (number text).getD val) := by
  by_cases lexed : (lexUint Width.w64.bits 0 text).ret = 0 <;> simp [number, lexU, lexed]

theorem apply_tagged (tag : Bytes) (lines : List Bytes) (val : ℕ) :
    apply (taggeduintcb tag) val lines = ((numbers tag lines).all Option.isSome,
      ((numbers tag lines).takeWhile Option.isSome).reduceOption.getLastD val) := by
  induction lines generalizing val with
  | nil => rfl
  | cons line lines ih =>
    rw [apply, taggeduintcb]
    by_cases has : tag <+: line
    · have first : numbers tag (line :: lines) =
          number (chars (line.drop tag.length)) :: numbers tag lines := by
        simp [numbers, has]
      have lexed := lexU_number (chars (line.drop tag.length)) val
      rw [Prod.mk.injEq] at lexed
      simp only [if_pos has, lexed.1, lexed.2, first]
      cases number (chars (line.drop tag.length)) with
      | none => rfl
      | some n =>
        rw [List.takeWhile_cons_of_pos rfl, List.reduceOption_cons_of_some, List.getLastD_cons, List.all_cons]
        exact ih n
    · have first : numbers tag (line :: lines) = numbers tag lines := by simp [numbers, has]
      rw [if_neg has, if_pos rfl, ih val, first]

theorem apply_matches (mline : Bytes) (lines : List Bytes) (m : UInt32) :
    apply (matchlinecb mline) m lines = (true, m + UInt32.ofNat (lines.count mline)) := by
  induction lines generalizing m with
  | nil => simp [apply]
  | cons line lines ih =>
    rw [apply, matchlinecb]
    by_cases same : line = mline
    · rw [if_pos same, if_pos rfl, ih, same, List.count_cons_self, add_comm (lines.count mline), UInt32.ofNat_add]
      exact congrArg (Prod.mk true) (UInt32.add_assoc m 1 _)
    · simp [same, ih, List.count_cons_of_ne]

section Results
variable {σ : Type} (junk : ℕ → UInt8) {bufsiz calls : ℕ} {f : ProcFile} {h : Heap}

/-- A file of which every window of the line parser gives the lines: no NULs, no continued lines,
and no window that is full and overhangs just at its end. -/
structure Readable (bufsiz : ℕ) (text : Bytes) : Prop where
  nul : 0 ∉ text
  straight : backslash ∉ text
  sound : ¬ Stale bufsiz bufsiz text

theorem parseProcfileByline_eq (large : 2 ≤ bufsiz) (lcb : LineParserCb σ) (readable : Readable bufsiz f.text)
    (enough : f.text.length + 2 < calls) (arg : σ) (served : Served h) :
    (parseProcfileByline junk bufsiz calls lcb f arg h).1 =
      if f.opens then ((apply lcb arg (keptLines f.text)).1 && f.closes, (apply lcb arg (keptLines f.text)).2)
      else (false, arg) := by
  have lines := parserByline_exact junk large lcb readable.nul readable.straight readable.sound enough arg served
  unfold parseProcfileByline
  cases f.opens with
  | false => rfl
  | true =>
    change ((parserByline junk bufsiz lcb calls ⟨f.text, []⟩ arg h).1.1 && f.closes,
      (parserByline junk bufsiz lcb calls ⟨f.text, []⟩ arg h).1.2) = _
    rw [lines]
    rfl

def taggedText : Bytes := [97, 58, 49, 10, 98, 58, 50, 10, 32, 97, 58, 51, 10]

theorem taggedText_readable : Readable 64 taggedText := by
  refine ⟨by decide, by decide, ?_⟩
  rintro (⟨full, -⟩ | ⟨more, -⟩)
  · exact absurd full (by decide)
  · exact absurd more (by decide)

end Results

end Libdank.ProcFiles
