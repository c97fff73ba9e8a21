import Libdank.Lexers.Tokens
import Libdank.PortSet.Lists
import Libdank.PortSet.Printing

/-! The grammar of ports and of ranges of ports, and `parse_port` and `parse_portrange` with what they
write and return: the number of characters as an `int`, which wraps where 31 bits do not hold it. -/
namespace Libdank.PortSet.Pointers
open Parse
open Lexers (Stops exists_run)

def toInt (length : ℕ) : ℤ := (length : ℤ).bmod (2 ^ 32)

def parsePort (buf : Text) (port : UInt16) : ℤ × UInt16 :=
  match portLoop 0 buf with
  | none => (-1, port)
  | some (p, n) => if n = 0 then (-1, port) else (toInt n, UInt16.ofNat p)

def Terminated (rest : Text) : Prop := ∀ c ∈ rest.head?, isspace c = true ∨ c = ',' ∨ c = '"'

instance : (rest : Text) → Decidable (Terminated rest)
  | [] => .isTrue nofun
  | c :: _ => decidable_of_iff (isspace c = true ∨ c = ',' ∨ c = '"') (by simp [Terminated])

def portrangeDone (start buf : Text) (pr : Portrange) : ℤ × Portrange :=
  if Terminated buf then (toInt (start.length - buf.length), pr) else (-1, pr)

def portrangeUpper (start buf : Text) (pr : Portrange) : ℤ × Portrange :=
  if (buf.head? = some '-' ∨ buf.head? = some ':') ∧ (buf.tail.head?.map isdigit).getD false then
    let buf := buf.tail
    let (i, upper) := parsePort buf pr.upper
    let pr := { pr with upper }
    if i < 0 then (-1, pr)
    else portrangeDone start (buf.drop i.toNat) (if pr.lower > pr.upper then ⟨pr.upper, pr.lower⟩ else pr)
  else if buf.head? = some ':' ∨ buf.head? = some '-' then portrangeDone start buf.tail pr
  else portrangeDone start buf { pr with upper := pr.lower }

def parsePortrange (start : Text) : ℤ × Portrange :=
  let buf := parseWhitespace start
  let pr : Portrange := ⟨0, 65535⟩
  if buf.head? = some ':' ∨ buf.head? = some '-' then
    let buf := buf.tail
    let (i, upper) := parsePort buf pr.upper
    let pr := { pr with upper }
    if i < 0 then (-1, pr) else portrangeDone start (buf.drop i.toNat) pr
  else
    let (i, lower) := parsePort buf pr.lower
    let pr := { pr with lower }
    if i < 0 then (-1, pr) else portrangeUpper start (buf.drop i.toNat) pr

/-- A run of digits for the port `p`, as long as it gets before `rest`. -/
structure Port (digits : Text) (p : UInt16) (rest : Text) : Prop where
  some_ : digits ≠ []
  all : ∀ c ∈ digits, isdigit c = true
  stop : Stops isdigit rest
  value : Nat.ofDigitChars 10 digits 0 = p.toNat

def Separator (c : Char) : Prop := c = '-' ∨ c = ':'

/-- `Form text pr rest`: the text begins with a range `pr`, and `rest` is what follows it. -/
inductive Form : Text → Portrange → Text → Prop
  | single {digits p rest} (port : Port digits p rest) : Form (digits ++ rest) ⟨p, p⟩ rest
  | closed {digits p sep digits' q rest} (sign : Separator sep) (port : Port digits p (sep :: (digits' ++ rest)))
      (port' : Port digits' q rest) : Form (digits ++ sep :: (digits' ++ rest)) ⟨min p q, max p q⟩ rest
  | upTo {sep digits p rest} (sign : Separator sep) (port : Port digits p rest) :
      Form (sep :: (digits ++ rest)) ⟨0, p⟩ rest
  | upwards {digits p sep rest} (sign : Separator sep) (port : Port digits p (sep :: rest)) :
      Form (digits ++ sep :: rest) ⟨p, 65535⟩ rest

/-- A range after whitespace, with nothing joined to it. -/
structure RangeText (text : Text) (pr : Portrange) (rest : Text) : Prop where
  form : ∃ white body, text = white ++ body ∧ (∀ c ∈ white, isspace c = true) ∧ Form body pr rest
  terminated : Terminated rest

theorem toInt_of_lt {length : ℕ} (short : length < 2 ^ 31) : toInt length = length := by
  unfold toInt
  apply Int.bmod_eq_of_le
  · omega
  · omega

theorem toNat_toInt_le (length : ℕ) : (toInt length).toNat ≤ length := by
  unfold toInt
  simp only [Int.bmod_def]
  split <;> omega

theorem not_isdigit_of_isspace {c : Char} (space : isspace c = true) : isdigit c = false := by
  simp only [isspace, Bool.or_eq_true, decide_eq_true_eq] at space
  rcases space with ((((rfl | rfl) | rfl) | rfl) | rfl) | rfl <;> rfl

theorem not_isspace_of_isdigit {c : Char} (digit : isdigit c = true) : isspace c = false := by
  rw [Bool.eq_false_iff]
  intro space
  rw [not_isdigit_of_isspace space] at digit
  cases digit

theorem Terminated.stops {rest : Text} (terminated : Terminated rest) : Stops isdigit rest := by
  intro c head
  rcases terminated c head with space | rfl | rfl
  · exact not_isdigit_of_isspace space
  · decide
  · decide

theorem Separator.not_isdigit {c : Char} (sign : Separator c) : isdigit c = false := by
  rcases sign with rfl | rfl <;> decide

theorem not_separator {c : Char} (digit : isdigit c = true) : ¬ Separator c := by
  intro sign
  rw [sign.not_isdigit] at digit
  cases digit

theorem Separator.not_isspace {c : Char} (sign : Separator c) : isspace c = false := by
  rcases sign with rfl | rfl <;> decide

/-- The number only grows, so that the loop stops at the latest with the last digit. -/
theorem portLoop_overflow (digits rest : Text) {p : ℕ} (all : ∀ c ∈ digits, isdigit c = true)
    (fits : p ≤ 65535) (large : 65535 < Nat.ofDigitChars 10 digits p) :
    portLoop p (digits ++ rest) = none := by
  induction digits generalizing p with
  | nil => exact absurd large (Nat.not_lt.mpr fits)
  | cons c digits ih =>
    rw [Nat.ofDigitChars_cons] at large
    rw [List.cons_append, portLoop, if_pos (all c List.mem_cons_self), Nat.mul_comm p 10]
    dsimp only
    split
    case isTrue => rfl
    case isFalse small =>
      rw [ih (fun d inside => all d (List.mem_cons_of_mem c inside)) (Nat.not_lt.mp small) large]
      rfl

section Port
variable {buf digits rest : Text} {p : UInt16}

theorem parsePort_port (port : Port digits p rest) (old : UInt16) :
    parsePort (digits ++ rest) old = (toInt digits.length, p) := by
  have fits : Nat.ofDigitChars 10 digits 0 ≤ 65535 := by
    have := p.toNat_lt
    rw [port.value]
    omega
  have some_ := mt List.length_eq_zero_iff.mp port.some_
  rw [parsePort, portLoop_digits digits port.all port.stop fits, port.value]
  dsimp only
  rw [if_neg some_, UInt16.ofNat_toNat]

theorem parsePort_short (port : Port digits p rest) (short : digits.length < 2 ^ 31) (old : UInt16) :
    parsePort (digits ++ rest) old = ((digits.length : ℤ), p) := by
  rw [parsePort_port port, toInt_of_lt short]

theorem parsePort_cases (buf : Text) (old : UInt16) :
    (∃ digits p rest, buf = digits ++ rest ∧ Port digits p rest) ∨ parsePort buf old = (-1, old) := by
  obtain ⟨digits, rest, rfl, all, stop⟩ := exists_run isdigit buf
  by_cases large : 65535 < Nat.ofDigitChars 10 digits 0
  · right
    rw [parsePort, portLoop_overflow digits rest all (by decide) large]
  by_cases none_ : digits = []
  · right
    subst none_
    rw [parsePort, portLoop_digits [] all stop (by decide)]
    rfl
  · refine .inl ⟨digits, UInt16.ofNat (Nat.ofDigitChars 10 digits 0), rest, rfl, none_, all, stop, ?_⟩
    rw [UInt16.toNat_ofNat', Nat.mod_eq_of_lt (by omega)]

theorem Port.head (port : Port digits p rest) : ∃ c tail, digits = c :: tail ∧ isdigit c = true := by
  obtain ⟨c, tail, rfl⟩ := List.exists_cons_of_ne_nil port.some_
  exact ⟨c, tail, rfl, port.all c List.mem_cons_self⟩

/-- Past a length that wrapped, the text goes on with a digit. -/
theorem Port.landing (port : Port digits p rest)
    (other : ∀ c ∈ ((digits ++ rest).drop (toInt digits.length).toNat).head?, isdigit c = false) :
    (digits ++ rest).drop (toInt digits.length).toNat = rest := by
  rcases Nat.eq_or_lt_of_le (toNat_toInt_le digits.length) with whole | short
  · rw [whole, List.drop_left]
  · have inside := port.all _ (List.getElem_mem short)
    rw [other] at inside
    · cases inside
    · rw [List.head?_drop, List.getElem?_append_left short, List.getElem?_eq_getElem short]
      rfl

end Port

section Range
variable {start buf rest digits : Text} {p : UInt16} {pr : Portrange}

theorem Form.head (form : Form buf pr rest) : ∃ c tail, buf = c :: tail ∧ isspace c = false := by
  cases form with
  | single port =>
    obtain ⟨c, tail, rfl, digit⟩ := port.head
    exact ⟨c, _, rfl, not_isspace_of_isdigit digit⟩
  | closed sign port port' =>
    obtain ⟨c, tail, rfl, digit⟩ := port.head
    exact ⟨c, _, rfl, not_isspace_of_isdigit digit⟩
  | upTo sign port => exact ⟨_, _, rfl, sign.not_isspace⟩
  | upwards sign port =>
    obtain ⟨c, tail, rfl, digit⟩ := port.head
    exact ⟨c, _, rfl, not_isspace_of_isdigit digit⟩

theorem RangeText.split (range : RangeText start pr rest) :
    Form (parseWhitespace start) pr rest ∧ (parseWhitespace start).length ≤ start.length := by
  obtain ⟨⟨white, body, rfl, all, form⟩, -⟩ := range
  obtain ⟨c, tail, rfl, solid⟩ := form.head
  have skipped : parseWhitespace (white ++ c :: tail) = c :: tail := by
    rw [parseWhitespace, List.dropWhile_append_of_pos all]
    exact List.dropWhile_cons_of_neg (Bool.eq_false_iff.mp solid)
  rw [skipped, List.length_append]
  exact ⟨form, Nat.le_add_left _ _⟩

theorem rangeText_of_form (form : Form (parseWhitespace start) pr rest) (terminated : Terminated rest) :
    RangeText start pr rest :=
  ⟨⟨start.takeWhile isspace, parseWhitespace start, List.takeWhile_append_dropWhile.symm,
    fun _ inside => List.mem_takeWhile_imp inside, form⟩, terminated⟩

theorem joint_iff : (buf.head? = some ':' ∨ buf.head? = some '-') ↔
    ∃ sep tail, buf = sep :: tail ∧ Separator sep := by
  constructor
  · rintro (head | head)
    · exact ⟨':', _, List.eq_cons_of_mem_head? head, .inr rfl⟩
    · exact ⟨'-', _, List.eq_cons_of_mem_head? head, .inl rfl⟩
  · rintro ⟨sep, tail, rfl, rfl | rfl⟩
    · exact .inr rfl
    · exact .inl rfl

theorem not_joint (stop : ∀ c ∈ buf.head?, ¬ Separator c) :
    ¬ (buf.head? = some ':' ∨ buf.head? = some '-') := by
  rw [joint_iff]
  rintro ⟨sep, tail, rfl, sign⟩
  exact stop sep rfl sign

theorem portrangeDone_sound (accepted : (portrangeDone start buf pr).1 ≠ -1) : Terminated buf := by
  by_contra other
  rw [portrangeDone, if_neg other] at accepted
  exact accepted rfl

theorem lastPort_sound {old : UInt16} {failed : Portrange}
    (accepted : (if (parsePort buf old).1 < 0 then (-1, failed)
      else portrangeDone start (buf.drop (parsePort buf old).1.toNat) pr).1 ≠ -1) :
    ∃ digits p rest, buf = digits ++ rest ∧ Port digits p rest ∧ Terminated rest := by
  rcases parsePort_cases buf old with ⟨digits, p, rest, rfl, port⟩ | none_
  · rw [parsePort_port port] at accepted
    dsimp only at accepted
    split at accepted
    case isTrue => exact absurd rfl accepted
    case isFalse =>
      have terminated := portrangeDone_sound accepted
      rw [port.landing terminated.stops] at terminated
      exact ⟨digits, p, rest, rfl, port, terminated⟩
  · rw [none_] at accepted
    exact absurd rfl accepted

theorem exchange_eq (p q : UInt16) :
    (if p > q then (⟨q, p⟩ : Portrange) else ⟨p, q⟩) = ⟨min p q, max p q⟩ := by
  have least : min p q = if p ≤ q then p else q := rfl
  have greatest : max p q = if p ≤ q then q else p := rfl
  rw [least, greatest]
  split
  case isTrue above => rw [if_neg (UInt16.not_le.mpr above), if_neg (UInt16.not_le.mpr above)]
  case isFalse below => rw [if_pos (UInt16.not_lt.mp below), if_pos (UInt16.not_lt.mp below)]

section Upper

theorem portrangeUpper_plain (stop : ∀ c ∈ buf.head?, ¬ Separator c) :
    portrangeUpper start buf pr = portrangeDone start buf { pr with upper := pr.lower } := by
  have other := not_joint stop
  rw [portrangeUpper, if_neg (fun both => other both.1.symm), if_neg other]

theorem portrangeUpper_open {sep : Char} (sign : Separator sep) (stop : Stops isdigit buf) :
    portrangeUpper start (sep :: buf) pr = portrangeDone start buf pr := by
  have other : ¬ (buf.head?.map isdigit).getD false = true := by
    cases head : buf.head? with
    | none => nofun
    | some c =>
      rw [Option.map_some, Option.getD_some, stop c head]
      nofun
  rw [portrangeUpper, if_neg (fun both => other both.2), if_pos (joint_iff.mpr ⟨sep, buf, rfl, sign⟩)]
  rfl

theorem portrangeUpper_closed {sep c : Char} {tail : Text} (sign : Separator sep)
    (digit : isdigit c = true) :
    portrangeUpper start (sep :: c :: tail) pr =
      if (parsePort (c :: tail) pr.upper).1 < 0 then
        (-1, { pr with upper := (parsePort (c :: tail) pr.upper).2 })
      else portrangeDone start ((c :: tail).drop (parsePort (c :: tail) pr.upper).1.toNat)
        ⟨min pr.lower (parsePort (c :: tail) pr.upper).2, max pr.lower (parsePort (c :: tail) pr.upper).2⟩ := by
  have joint := joint_iff.mpr ⟨sep, c :: tail, rfl, sign⟩
  rw [portrangeUpper, if_pos ⟨joint.symm, digit⟩, ← exchange_eq]
  rfl

theorem portrangeUpper_digit {c : Char} (head : buf.head? = some c) (digit : isdigit c = true) :
    (portrangeUpper start buf pr).1 = -1 := by
  have plain : ∀ d ∈ buf.head?, ¬ Separator d := by
    intro d other
    obtain rfl : d = c := Option.some.inj (other.symm.trans head)
    exact not_separator digit
  rw [portrangeUpper_plain plain]
  by_contra accepted
  have stop := (portrangeDone_sound accepted).stops c head
  rw [digit] at stop
  cases stop

theorem portrangeUpper_sound (port : Port digits p buf) (accepted : (portrangeUpper start buf pr).1 ≠ -1) :
    ∃ pr rest, Form (digits ++ buf) pr rest ∧ Terminated rest := by
  by_cases joint : ∃ sep tail, buf = sep :: tail ∧ Separator sep
  case neg =>
    have plain : ∀ c ∈ buf.head?, ¬ Separator c := fun c head sign =>
      joint ⟨c, buf.tail, List.eq_cons_of_mem_head? head, sign⟩
    rw [portrangeUpper_plain plain] at accepted
    exact ⟨_, buf, .single port, portrangeDone_sound accepted⟩
  obtain ⟨sep, tail, rfl, sign⟩ := joint
  by_cases stop : Stops isdigit tail
  · rw [portrangeUpper_open sign stop] at accepted
    exact ⟨_, tail, .upwards sign port, portrangeDone_sound accepted⟩
  · obtain ⟨c, tail, rfl, digit⟩ : ∃ c rest, tail = c :: rest ∧ isdigit c = true := by
      cases tail with
      | nil => exact absurd nofun stop
      | cons c rest => exact ⟨c, rest, rfl, by simpa [Stops] using stop⟩
    rw [portrangeUpper_closed sign digit] at accepted
    obtain ⟨digits', q, rest, same, port', terminated⟩ := lastPort_sound accepted
    rw [same] at port ⊢
    exact ⟨_, rest, .closed sign port port', terminated⟩

end Upper

theorem parsePortrange_sound (accepted : (parsePortrange start).1 ≠ -1) :
    ∃ pr rest, RangeText start pr rest := by
  rw [parsePortrange] at accepted
  dsimp only at accepted
  by_cases joint : ∃ sep tail, parseWhitespace start = sep :: tail ∧ Separator sep
  · rw [if_pos (joint_iff.mpr joint)] at accepted
    obtain ⟨sep, tail, at_, sign⟩ := joint
    rw [at_, List.tail_cons] at accepted
    obtain ⟨digits, p, rest, rfl, port, terminated⟩ := lastPort_sound accepted
    exact ⟨_, rest, rangeText_of_form (at_ ▸ Form.upTo sign port) terminated⟩
  · rw [if_neg (mt joint_iff.mp joint)] at accepted
    rcases parsePort_cases (parseWhitespace start) 0 with ⟨digits, p, rest, at_, port⟩ | none_
    · rw [at_, parsePort_port port] at accepted
      dsimp only at accepted
      split at accepted
      case isTrue => exact absurd rfl accepted
      case isFalse =>
        have landed := port.landing fun c head => Bool.eq_false_iff.mpr fun digit =>
          accepted (portrangeUpper_digit head digit)
        rw [landed] at accepted
        obtain ⟨pr, rest, form, terminated⟩ := portrangeUpper_sound port accepted
        exact ⟨pr, rest, rangeText_of_form (at_ ▸ form) terminated⟩
    · rw [none_] at accepted
      exact absurd rfl accepted

theorem Port.plain (port : Port digits p rest) : ∀ c ∈ (digits ++ rest).head?, ¬ Separator c := by
  obtain ⟨c, tail, rfl, digit⟩ := port.head
  intro d head
  obtain rfl : c = d := Option.some.inj head
  exact not_separator digit

theorem Terminated.plain (terminated : Terminated rest) : ∀ c ∈ rest.head?, ¬ Separator c := by
  rintro c head sign
  rcases terminated c head with space | rfl | rfl
  · rw [sign.not_isspace] at space
    cases space
  · rcases sign with same | same <;> cases same
  · rcases sign with same | same <;> cases same

/-- A range is read as it is written, if an `int` holds the number of its characters. -/
theorem parsePortrange_exact (range : RangeText start pr rest) (short : start.length - rest.length < 2 ^ 31) :
    parsePortrange start = (((start.length - rest.length : ℕ) : ℤ), pr) := by
  obtain ⟨form, inside⟩ := range.split
  have terminated := range.terminated
  have done : ∀ pr, portrangeDone start rest pr = (((start.length - rest.length : ℕ) : ℤ), pr) := by
    intro pr
    rw [portrangeDone, if_pos terminated, toInt_of_lt short]
  have forward : ∀ n : ℕ, ¬ (n : ℤ) < 0 := fun n => Int.not_lt.mpr (Int.natCast_nonneg n)
  rw [parsePortrange]
  dsimp only
  generalize parseWhitespace start = body at form inside ⊢
  cases form with
  | single port =>
    rw [List.length_append] at inside
    rw [if_neg (not_joint port.plain), parsePort_short port (by omega)]
    dsimp only
    rw [if_neg (forward _), Int.toNat_natCast, List.drop_left, portrangeUpper_plain terminated.plain, done]
  | upwards sign port =>
    rw [List.length_append, List.length_cons] at inside
    rw [if_neg (not_joint port.plain), parsePort_short port (by omega)]
    dsimp only
    rw [if_neg (forward _), Int.toNat_natCast, List.drop_left, portrangeUpper_open sign terminated.stops, done]
  | upTo sign port =>
    rw [List.length_cons, List.length_append] at inside
    rw [if_pos (joint_iff.mpr ⟨_, _, rfl, sign⟩), List.tail_cons, parsePort_short port (by omega)]
    dsimp only
    rw [if_neg (forward _), Int.toNat_natCast, List.drop_left, done]
  | closed sign port port' =>
    rw [List.length_append, List.length_cons, List.length_append] at inside
    rw [if_neg (not_joint port.plain), parsePort_short port (by omega)]
    dsimp only
    rw [if_neg (forward _), Int.toNat_natCast, List.drop_left]
    obtain ⟨c, tail, rfl, digit⟩ := port'.head
    rw [List.cons_append, portrangeUpper_closed sign digit, ← List.cons_append,
      parsePort_short port' (by omega), if_neg (forward _), Int.toNat_natCast, List.drop_left, done]

end Range

/-- What is returned for the result `r` with its number of characters. -/
def Agrees {α : Type} (r : Option (ℕ × α)) (returned : ℤ × α) : Prop :=
  match r with
  | none => returned.1 = -1
  | some (n, a) => returned = ((n : ℤ), a)

theorem Agrees.bind {α β : Type} {r : Option (ℕ × α)} {returned : ℤ × α}
    {f : ℕ × α → Option (ℕ × β)} {g : ℕ → α → ℤ × β} (h : Agrees r returned) (failed : β)
    (next : ∀ n a, Agrees (f (n, a)) (g n a)) :
    Agrees (r.bind f) (if returned.1 < 0 then (-1, failed) else g returned.1.toNat returned.2) := by
  cases r with
  | none =>
    have negative : returned.1 < 0 := by
      rw [h]
      decide
    rw [if_pos negative]
    rfl
  | some read =>
    obtain ⟨n, a⟩ := read
    obtain rfl : returned = ((n : ℤ), a) := h
    rw [if_neg (Int.not_lt.mpr (Int.natCast_nonneg n)), Int.toNat_natCast]
    exact next n a

section Short
variable {start : Text} (short : start.length < 2 ^ 31)
include short

theorem parsePort_agrees (old : UInt16) : Agrees (PortSet.parsePort start) (parsePort start old) := by
  obtain ⟨digits, rest, rfl, all, stop⟩ := exists_run isdigit start
  rw [PortSet.parsePort, parsePort]
  by_cases large : 65535 < Nat.ofDigitChars 10 digits 0
  · rw [portLoop_overflow digits rest all (by decide) large]
    rfl
  · rw [portLoop_digits digits all stop (Nat.not_lt.mp large), Option.bind_some]
    dsimp only
    split
    case isTrue => rfl
    case isFalse =>
      rw [List.length_append] at short
      rw [toInt_of_lt (by omega)]
      rfl

theorem portrangeDone_agrees (buf : Text) (pr : Portrange) :
    Agrees (PortSet.portrangeDone start buf pr) (portrangeDone start buf pr) := by
  have returned : toInt (start.length - buf.length) = ((start.length - buf.length : ℕ) : ℤ) :=
    toInt_of_lt (lt_of_le_of_lt (Nat.sub_le _ _) short)
  rw [portrangeDone, returned]
  cases buf with
  | nil =>
    rw [if_pos nofun]
    rfl
  | cons c rest =>
    have same : Terminated (c :: rest) ↔ (isspace c || c = ',' || c = '"') = true := by
      simp [Terminated, or_assoc]
    rw [PortSet.portrangeDone, if_congr same rfl rfl]
    split
    case isTrue => rfl
    case isFalse => rfl

/-- Of fewer than 2 ^ 31 characters, the results are those with the numbers of characters. -/
theorem parsePortrange_agrees : Agrees (PortSet.parsePortrange start) (parsePortrange start) := by
  have done := portrangeDone_agrees short
  have inside : (parseWhitespace start).length ≤ start.length := List.length_dropWhile_le ..
  rw [PortSet.parsePortrange, parsePortrange]
  dsimp only
  generalize parseWhitespace start = buf at inside ⊢
  by_cases joint : buf.head? = some ':' ∨ buf.head? = some '-'
  · rw [if_pos joint, if_pos joint]
    have tail : buf.tail.length < 2 ^ 31 := by
      rw [List.length_tail]
      omega
    exact Agrees.bind (g := fun n upper => portrangeDone start (buf.tail.drop n) ⟨0, upper⟩)
      (parsePort_agrees tail 65535) ⟨0, _⟩ fun n upper => done _ _
  · rw [if_neg joint, if_neg joint]
    refine Agrees.bind (g := fun n lower => portrangeUpper start (buf.drop n) ⟨lower, 65535⟩)
      (parsePort_agrees (by omega) 0) ⟨_, 65535⟩ fun n lower => ?_
    have less : (buf.drop n).length ≤ start.length := by
      rw [List.length_drop]
      omega
    dsimp only
    generalize buf.drop n = buf at less ⊢
    rw [portrangeUpper]
    split
    case isTrue =>
      have tail : buf.tail.length < 2 ^ 31 := by
        rw [List.length_tail]
        omega
      exact Agrees.bind
        (g := fun n upper => portrangeDone start (buf.tail.drop n)
          (if lower > upper then ⟨upper, lower⟩ else ⟨lower, upper⟩))
        (parsePort_agrees tail 65535) ⟨lower, _⟩ fun n upper => done _ _
    case isFalse =>
      split
      case isTrue => exact done _ _
      case isFalse => exact done _ _

end Short

/-- Ports and ranges of ports are accepted just where the grammar has them, and read as written. -/
theorem parsePort_parsePortrange_exact (text : Text) (old : UInt16) :
    (∀ digits p rest, text = digits ++ rest → Port digits p rest → (parsePort text old).2 = p ∧
      (digits.length < 2 ^ 31 → (parsePort text old).1 = digits.length)) ∧
    ((∀ digits p rest, text = digits ++ rest → ¬ Port digits p rest) → parsePort text old = (-1, old)) ∧
    (∀ pr rest, RangeText text pr rest → text.length - rest.length < 2 ^ 31 →
      parsePortrange text = (((text.length - rest.length : ℕ) : ℤ), pr)) ∧
    ((∀ pr rest, ¬ RangeText text pr rest) → (parsePortrange text).1 = -1) := by
  refine ⟨?_, fun none_ => ?_, fun pr rest => parsePortrange_exact, fun none_ => ?_⟩
  · rintro digits p rest rfl port
    refine ⟨?_, fun short => ?_⟩
    · rw [parsePort_port port]
    · rw [parsePort_short port short]
  · rcases parsePort_cases text old with ⟨digits, p, rest, same, port⟩ | failed
    · exact absurd port (none_ digits p rest same)
    · exact failed
  · by_contra accepted
    obtain ⟨pr, rest, range⟩ := parsePortrange_sound accepted
    exact none_ pr rest range

example : parsePortrange " 90-080,".toList = (7, ⟨80, 90⟩) := by decide

theorem ofDigitChars_zeros (n : ℕ) : Nat.ofDigitChars 10 (List.replicate n '0') 0 = 0 := by
  induction n with
  | zero => rfl
  | succ n ih =>
    rw [List.replicate_succ, Nat.ofDigitChars_cons]
    exact ih

theorem port_zeros {n : ℕ} (some_ : n ≠ 0) : Port (List.replicate n '0') 0 [] where
  some_ := mt (List.replicate_eq_nil_iff '0').mp some_
  all c inside := by
    rw [List.eq_of_mem_replicate inside]
    decide
  stop := nofun
  value := ofDigitChars_zeros n

/-- 2 ^ 31 zeros are a port, but their number is returned as a negative one. -/
theorem parsePort_zeros : Port (List.replicate (2 ^ 31) '0') 0 [] ∧
    parsePort (List.replicate (2 ^ 31) '0') 0 = (-2 ^ 31, 0) := by
  have port := port_zeros (n := 2 ^ 31) (by decide)
  have read := parsePort_port port 0
  rw [List.append_nil, List.length_replicate] at read
  exact ⟨port, read⟩

end Libdank.PortSet.Pointers
