import Libdank.Lexers.Tokens
import Libdank.Uri.Refusals

/-! The digits of a port. The lexer behind the colon reads more than the grammar has,
and less of it: an empty run is refused, and what a zero leads is read in another base. -/
namespace Libdank.Uri
open Parse Lexers Requests

def portDigits (text : Text) : Text := text.takeWhile isdigit

def behindDigits (text : Text) : Text := text.dropWhile isdigit

/-- The lexer reads the run in base ten, and takes it if it fits. -/
def LexesPort (text : Text) : Prop :=
  (decimal (portDigits text) ≤ 65535 → ∃ q, lexU16 text = .ok q) ∧
    ∀ q, lexU16 text = .ok q → q = (decimal (portDigits text), behindDigits text)

def OctalPort (digits : Text) : Prop :=
  ∃ more, digits = '0' :: more ∧ more ≠ [] ∧ more.head? ≠ some '0' ∧
    (∀ c ∈ more, octal c = true) ∧ value 8 0 more < 2 ^ 16

/-- Digits that no zero leads, a zero or two with nothing but an end behind them, one
octal digit behind a zero, or a number too large in both bases. -/
def PlainPort (text : Text) : Prop :=
  portDigits text ≠ [] ∧
    ((portDigits text).head? ≠ some '0' ∨
      (portDigits text = ['0'] ∨ portDigits text = ['0', '0']) ∧ Lexers.Ends (behindDigits text) ∨
      (∃ d, portDigits text = ['0', d] ∧ octal d = true ∧ d ≠ '0') ∨
      65535 < decimal (portDigits text) ∧ ¬ OctalPort (portDigits text))

section Runs

variable {text digits rest : Text}

theorem portDigits_append (all : ∀ c ∈ digits, isdigit c = true) (stop : Stops isdigit rest) :
    portDigits (digits ++ rest) = digits ∧ behindDigits (digits ++ rest) = rest := by
  refine ⟨?_, ?_⟩
  · rw [portDigits, List.takeWhile_append_of_pos all]
    cases rest with
    | nil => rw [List.takeWhile_nil, List.append_nil]
    | cons c rest => rw [List.takeWhile_cons_of_neg (by simp [stop c rfl]), List.append_nil]
  · rw [behindDigits, List.dropWhile_append_of_pos all]
    cases rest with
    | nil => rfl
    | cons c rest => exact List.dropWhile_cons_of_neg (by simp [stop c rfl])

theorem decimal_eq_value (all : ∀ c ∈ digits, isdigit c = true) : decimal digits = value 10 0 digits := by
  have from_ (v : ℕ) : digits.foldl (fun value c => 10 * value + (c.toNat - '0'.toNat)) v =
      value 10 v digits := by
    induction digits generalizing v with
    | nil => rfl
    | cons c digits ih =>
      rw [List.foldl_cons, value_cons, ordinal_of_isdigit (all c (.head _)), Nat.mul_comm]
      exact ih (fun d mem => all d (.tail _ mem)) _
  exact from_ 0

theorem value_lt {v v' : ℕ} (lt : v < v') (digits : Text) : value 8 v digits < value 10 v' digits := by
  induction digits generalizing v v' with
  | nil => exact lt
  | cons c digits ih =>
    have next : v * 8 + ordinal c < v' * 10 + ordinal c := by omega
    exact ih next

theorem value_eq_iff (all : ∀ c ∈ digits, isdigit c = true) (lead : digits.head? ≠ some '0') :
    value 8 0 digits = value 10 0 digits ↔ digits.length ≤ 1 := by
  match digits with
  | [] => exact iff_of_true rfl (Nat.zero_le _)
  | [c] => exact iff_of_true rfl le_rfl
  | c :: d :: digits =>
    refine iff_of_false ?_ (by simp)
    have positive : 0 < ordinal c := by
      rw [← ordinal_of_isdigit (all c (.head _))]
      have digit := all c (.head _)
      simp only [isdigit, Bool.and_eq_true, decide_eq_true_eq] at digit
      have low : '0'.toNat ≤ c.toNat := digit.1
      have other : c.toNat ≠ '0'.toNat := fun same => lead (congrArg some (Char.toNat_inj.mp same))
      omega
    have lt : (0 * 8 + ordinal c) * 8 + ordinal d < (0 * 10 + ordinal c) * 10 + ordinal d := by omega
    exact (value_lt lt digits).ne

end Runs

section Lexed

variable {text rest digits : Text}

theorem lexesPort_of_reads {good : Prop} {v : ℕ} (reads : Reads 16 good v rest (lexU16 text)) :
    LexesPort text ↔
      (good ∧ v < 2 ^ 16 → v = decimal (portDigits text) ∧ rest = behindDigits text) ∧
        (¬ (good ∧ v < 2 ^ 16) → 65535 < decimal (portDigits text)) := by
  obtain ⟨accepts, refuses⟩ := reads
  by_cases fits : good ∧ v < 2 ^ 16
  · have ok := accepts fits
    simp only [fits, true_implies, not_true, false_implies, and_true, LexesPort, ok, Except.ok.injEq]
    refine ⟨fun same => Prod.mk.inj (same.2 _ rfl), fun same => ⟨fun _ => ⟨_, rfl⟩, ?_⟩⟩
    rintro q rfl
    rw [same.1, same.2]
  · obtain ⟨ret, error⟩ := refuses fits
    simp only [fits, false_implies, not_false_iff, true_implies, true_and, LexesPort, error, reduceCtorEq,
      exists_false, imp_false, not_le, implies_true, and_true]

theorem portDigits_zero (other : ∀ c ∈ rest.head?, isdigit c = false) :
    portDigits ('0' :: rest) = ['0'] ∧ behindDigits ('0' :: rest) = rest :=
  @portDigits_append ['0'] rest (by simp [isdigit]) other

theorem lexesPort_zeros {zeros : Text} (form : zeros = ['0'] ∨ zeros = ['0', '0'])
    (reads : Reads 16 (Lexers.Ends rest) 0 rest (lexU16 (zeros ++ rest))) (stop : Stops isdigit rest) :
    LexesPort (zeros ++ rest) ↔ PlainPort (zeros ++ rest) := by
  have all : ∀ c ∈ zeros, isdigit c = true := by
    rcases form with rfl | rfl <;> simp [isdigit]
  have nothing : decimal zeros = 0 := by
    rcases form with rfl | rfl <;> rfl
  have lead : zeros.head? = some '0' := by
    rcases form with rfl | rfl <;> rfl
  obtain ⟨run, behind⟩ := portDigits_append all stop
  have some_ : zeros ≠ [] := fun none_ => by
    rw [none_] at lead
    cases lead
  have single : ¬ ∃ d, zeros = ['0', d] ∧ octal d = true ∧ d ≠ '0' := by
    rintro ⟨d, rfl, -, other⟩
    rcases form with one | two
    · cases one
    · obtain ⟨rfl, -⟩ := List.cons.inj (List.cons.inj two).2
      exact other rfl
  rw [lexesPort_of_reads reads, PlainPort, run, behind, nothing]
  simp only [lead, some_, form, single, ne_eq, not_true, not_false_iff, false_or, true_and, not_lt_zero,
    false_and, or_false, Nat.two_pow_pos, and_true, implies_true, imp_false, not_not]

theorem lexesPort_none (none_ : portDigits text = []) : ¬ LexesPort text := by
  intro lexes
  have nothing : decimal (portDigits text) = 0 := by
    rw [none_]
    rfl
  obtain ⟨⟨v, after⟩, ok⟩ := lexes.1 (by omega)
  have same : (v, after) = _ := lexes.2 _ ok
  have behind : behindDigits text = text := by
    have whole : portDigits text ++ behindDigits text = text := List.takeWhile_append_dropWhile
    rwa [none_, List.nil_append] at whole
  have less := lexUint_consumes ok
  rw [(Prod.mk.inj same).2, behind] at less
  exact lt_irrefl _ less

theorem lexU16_hex_suffix {x : Char} {tail : Text} (isx : IsX x) {q : ℕ × Text}
    (ok : lexU16 ('0' :: x :: tail) = .ok q) : q.2 <:+ tail := by
  have helper : lexUint0helper 16 0 (x :: tail) = .ok q := by
    rw [lexU16, lexUint] at ok
    simp only [show parseWhitespace ('0' :: x :: tail) = '0' :: x :: tail from rfl, List.head?_cons,
      if_true, List.tail_cons] at ok
    cases lexed : lexUint0helper 16 0 (x :: tail) with
    | ok q' => rwa [lexed] at ok
    | error ret => simp [lexed] at ok
  unfold IsX at isx
  rw [lexUint0helper, if_pos isx] at helper
  split_ifs at helper
  · exact (lexZero_suffix helper).trans (List.tail_suffix tail)
  · exact addRun_suffix helper

theorem lexesPort_hex {x : Char} {tail : Text} (isx : IsX x) :
    ¬ LexesPort ('0' :: x :: tail) ∧ ¬ PlainPort ('0' :: x :: tail) := by
  have nodigit : ∀ c ∈ (x :: tail).head?, isdigit c = false := by
    rcases isx with rfl | rfl <;> simp [isdigit]
  obtain ⟨run, behind⟩ := portDigits_zero nodigit
  constructor
  · intro lexes
    obtain ⟨q, ok⟩ := lexes.1 (by rw [run]; decide)
    have shorter := (lexU16_hex_suffix isx ok).length_le
    rw [lexes.2 q ok, behind, List.length_cons] at shorter
    exact Nat.not_succ_le_self _ shorter
  · rintro ⟨-, plain⟩
    rw [run, behind] at plain
    rcases plain with other | ⟨-, end_⟩ | ⟨d, two, -⟩ | ⟨large, -⟩
    · exact other rfl
    · exact (ends_head end_).1 isx
    · cases two
    · exact absurd large (by decide)

theorem lexesPort_decimal (some_ : digits ≠ []) (all : ∀ c ∈ digits, isdigit c = true)
    (lead : digits.head? ≠ some '0') (stop : Stops isdigit rest) :
    LexesPort (digits ++ rest) ∧ PlainPort (digits ++ rest) := by
  obtain ⟨run, behind⟩ := portDigits_append all stop
  obtain ⟨c, more, shape⟩ := List.exists_cons_of_ne_nil some_
  have first : isdigit c = true := all c (by simp [shape])
  have at_ : parseWhitespace (digits ++ rest) = digits ++ rest := by
    rw [shape, List.cons_append]
    exact List.dropWhile_cons_of_neg (by simp [isspace_of_isdigit first])
  have reads : Reads 16 True (value 10 0 digits) rest (lexU16 (digits ++ rest)) :=
    lexUint_decimal (by decide) at_ some_ all lead stop
  refine ⟨(lexesPort_of_reads reads).mpr ?_, by rwa [run], .inl (by rwa [run])⟩
  rw [run, behind, decimal_eq_value all]
  refine ⟨fun _ => ⟨rfl, rfl⟩, fun large => ?_⟩
  have past : 2 ^ 16 ≤ value 10 0 digits := not_lt.mp (not_and.mp large trivial)
  omega

theorem lexesPort_octal (some_ : digits ≠ []) (all : ∀ c ∈ digits, isdigit c = true)
    (lead : digits.head? ≠ some '0') (stop : Stops isdigit rest) :
    LexesPort ('0' :: (digits ++ rest)) ↔ PlainPort ('0' :: (digits ++ rest)) := by
  have all' : ∀ c ∈ '0' :: digits, isdigit c = true := by
    simpa [isdigit] using all
  obtain ⟨run, behind⟩ := portDigits_append all' stop
  have number : decimal ('0' :: digits) = value 10 0 digits := by
    rw [decimal_eq_value all', value_cons]
    rfl
  have reads : Reads 16 (∀ c ∈ digits, octal c = true) (value 8 0 digits) rest
      (lexU16 ('0' :: (digits ++ rest))) :=
    lexUint_octal (by decide) rfl some_ all lead stop
  have fits_iff : OctalPort ('0' :: digits) ↔
      (∀ c ∈ digits, octal c = true) ∧ value 8 0 digits < 2 ^ 16 := by
    constructor
    · rintro ⟨more, same, -, -, fits⟩
      obtain ⟨-, rfl⟩ := List.cons.inj same
      exact fits
    · exact fun fits => ⟨digits, rfl, some_, lead, fits⟩
  have zeros : ¬ (digits = [] ∨ digits = ['0']) := by
    rintro (rfl | rfl)
    · exact some_ rfl
    · exact lead rfl
  have single : (∃ d, digits = [d] ∧ octal d = true ∧ ¬ d = '0') ↔
      OctalPort ('0' :: digits) ∧ digits.length ≤ 1 := by
    rw [fits_iff]
    constructor
    · rintro ⟨d, rfl, good, -⟩
      have small := ((ordinal_facts (isxdigit_of_isdigit (isdigit_of_octal good))).2.2.mp good).2
      have number : value 8 0 [d] = 0 * 8 + ordinal d := rfl
      exact ⟨⟨by simpa using good, by omega⟩, le_rfl⟩
    · rintro ⟨⟨good, -⟩, short⟩
      obtain ⟨d, more, rfl⟩ := List.exists_cons_of_ne_nil some_
      obtain rfl : more = [] := List.length_eq_zero_iff.mp (Nat.le_zero.mp (Nat.le_of_succ_le_succ short))
      exact ⟨d, rfl, good d (.head _), fun zero => lead (congrArg some zero)⟩
  rw [lexesPort_of_reads reads, ← List.cons_append, PlainPort, run, behind, number, ← fits_iff]
  simp only [ne_eq, List.head?_cons, not_true, false_or, reduceCtorEq, not_false_iff, true_and,
    and_true, List.cons.injEq, zeros, single, false_and, false_or, value_eq_iff all lead]
  by_cases fits : OctalPort ('0' :: digits)
  · simp only [fits, true_implies, not_true, false_implies, true_and, and_false, and_true, or_false]
  · simp only [fits, false_implies, not_false_iff, true_implies, true_and, false_and, and_true, false_or]

theorem lexesPort_leading (digit : ∃ c ∈ rest.head?, isdigit c = true) :
    LexesPort ('0' :: '0' :: rest) ↔ PlainPort ('0' :: '0' :: rest) := by
  obtain ⟨c, more, rfl, first⟩ : ∃ c more, rest = c :: more ∧ isdigit c = true := by
    cases rest with
    | nil => simp at digit
    | cons c more => exact ⟨c, more, rfl, by simpa using digit⟩
  have reads : Reads 16 (Lexers.Ends (c :: more)) 0 (c :: more) (lexU16 ('0' :: '0' :: c :: more)) :=
    lexUint_zeroForm (.inr (.inl rfl))
  have open_ : ¬ Lexers.Ends (c :: more) := fun end_ => by
    have stop := (ends_head end_).2
    rw [first] at stop
    cases stop
  have run : portDigits ('0' :: '0' :: c :: more) = '0' :: '0' :: c :: portDigits more := by
    have zero : isdigit '0' = true := by decide
    rw [portDigits, List.takeWhile_cons_of_pos zero, List.takeWhile_cons_of_pos zero,
      List.takeWhile_cons_of_pos first]
    rfl
  have other : ¬ OctalPort ('0' :: '0' :: c :: portDigits more) := by
    rintro ⟨digits, same, -, lead, -⟩
    obtain ⟨-, rfl⟩ := List.cons.inj same
    exact lead rfl
  rw [lexesPort_of_reads reads, PlainPort, run]
  simp [open_, other]

theorem lexesPort_iff (text : Text) : LexesPort text ↔ PlainPort text := by
  cases shape text with
  | decimal some_ all lead stop =>
    obtain ⟨lexes, plain⟩ := lexesPort_decimal some_ all lead stop
    exact iff_of_true lexes plain
  | @zero text rest form =>
    rcases form with ⟨rfl, other⟩ | rfl | ⟨x, isx, rfl⟩
    · exact lexesPort_zeros (.inl rfl) (lexUint_zeroForm (.inl ⟨rfl, other⟩)) fun c mem => (other c mem).2
    · by_cases digit : ∃ c ∈ rest.head?, isdigit c = true
      · exact lexesPort_leading digit
      · refine lexesPort_zeros (.inr rfl) (lexUint_zeroForm (.inr (.inl rfl))) fun c mem => ?_
        exact Bool.eq_false_iff.mpr fun first => digit ⟨c, mem, first⟩
    · exact iff_of_false (lexesPort_hex isx).1 (lexesPort_hex isx).2
  | hex isx all lead stop => exact iff_of_false (lexesPort_hex isx).1 (lexesPort_hex isx).2
  | octal some_ all lead stop => exact lexesPort_octal some_ all lead stop
  | other stop =>
    have none_ : portDigits text = [] := (@portDigits_append [] text (by simp) stop).1
    exact iff_of_false (lexesPort_none none_) fun plain => plain.1 none_

end Lexed

section Authority

variable (inetPton : Text → Bool)

def parseToPort (line : Text) (u : Pointer Record) : Request (Ended Text) :=
  andThen (parseUserinfo line u) (fun found u => parseHost inetPton found.1 found.2 u)
    (fun found u => pure (false, found.2, u))

def hostRest (text : Text) : Option Text :=
  (hostStart text).bind fun start => hostEnd inetPton start.1.1 start.1.2

theorem parseToPort_leaves (text : Text) (u : Pointer Record) :
    Leaves (parseToPort inetPton text u) (hostRest inetPton text) := by
  refine (leaves_andThen (parseUserinfo_leaves text u)
    (fun found u => parseHost_leaves inetPton found.1 found.2 u) fun _ _ _ => rfl).congr ?_
  rw [Option.bind_map]
  rfl

theorem parseToPort_served {text line : Text} (reaches : hostRest inetPton text = some line) (u : Record)
    {h : Heap} (served : Served h) :
    ∃ u', (parseToPort inetPton text (some u) h).1 = (true, line, some u') := by
  have steps : Ensures Served (parseToPort inetPton text (some u)) _ :=
    parses_andThen (parseUserinfo_parses text (some u))
      (fun found u => parseHost_parses inetPton found.1 found.2 u) fun found u => fails_pure found.2 u
  have steps := steps h served
  cases start : hostStart text with
  | none => simp [hostRest, start] at reaches
  | some found =>
    have stop : hostEnd inetPton found.1.1 found.1.2 = some line := by
      simpa only [hostRest, start, Option.bind_some] using reaches
    simp only [start, stop, Option.map_some, Option.bind_some] at steps
    exact ⟨_, steps.2⟩

theorem parseUriAuthority_steps (text : Text) (u : Pointer Record) :
    parseUriAuthority inetPton text u = andThen (parseToPort inetPton text u)
      (fun line u => andThen (parseUriPort line u) (fun line u => pure (true, line, u)) leaveAuthority)
      leaveAuthority := by
  funext h
  rw [parseUriAuthority, andThen_apply, andThen_apply, parseToPort, andThen_apply]
  cases (parseUserinfo text u h).1.1 <;> rfl

theorem parseUriAuthority_reached {text : Text} {u : Pointer Record} {h : Heap}
    (reached : (parseToPort inetPton text u h).1.1 = true) :
    parseUriAuthority inetPton text u h =
      andThen (parseUriPort (parseToPort inetPton text u h).1.2.1 (parseToPort inetPton text u h).1.2.2)
        (fun line u => pure (true, line, u)) leaveAuthority (parseToPort inetPton text u h).2 := by
  rw [parseUriAuthority_steps, andThen_apply, if_pos reached]

/-- For whoever comes to the colon, the port is read as the grammar has it: it is taken
if it fits, is then the number in base ten, and just its digits are passed. -/
def ReadsPort (text rest : Text) : Prop :=
  ∀ (u : Pointer Record) (h : Heap), (parseToPort inetPton text u h).1.1 = true →
    (decimal (portDigits rest) ≤ 65535 → (parseUriAuthority inetPton text u h).1.1 = true) ∧
    ((parseUriAuthority inetPton text u h).1.1 = true →
      (parseUriAuthority inetPton text u h).1.2.1 = behindDigits rest ∧
        ∀ r ∈ (parseUriAuthority inetPton text u h).1.2.2, r.port = decimal (portDigits rest))

variable {inetPton}

theorem parseUriAuthority_port {text rest : Text} {u : Pointer Record} {h : Heap}
    (reaches : hostRest inetPton text = some (':' :: rest))
    (reached : (parseToPort inetPton text u h).1.1 = true) :
    (∀ ret, lexU16 rest = .error ret → (parseUriAuthority inetPton text u h).1.1 = false) ∧
    ∀ p after, lexU16 rest = .ok (p, after) → (parseUriAuthority inetPton text u h).1 =
      (true, after, (parseToPort inetPton text u h).1.2.2.map fun u => { u with port := p }) := by
  have line : ':' :: rest = _ :=
    Option.some.inj (reaches.symm.trans (parseToPort_leaves inetPton text u h reached))
  rw [parseUriAuthority_reached inetPton reached, ← line, andThen, bind_apply, parseUriPort,
    if_pos (show head (':' :: rest) = ':' from rfl), List.tail_cons]
  constructor
  · intro ret error
    rw [error]
    cases (parseToPort inetPton text u h).1.2.2 <;> rfl
  · intro p after ok
    rw [ok]
    rfl

theorem ReadsPort.lexes {text rest : Text} (reaches : hostRest inetPton text = some (':' :: rest))
    (reads : ReadsPort inetPton text rest) : LexesPort rest := by
  obtain ⟨u', reached⟩ := @parseToPort_served inetPton _ _ reaches zeroed ⟨[], false⟩ rfl
  have open_ : (parseToPort inetPton text (some zeroed) ⟨[], false⟩).1.1 = true := by rw [reached]
  obtain ⟨refused, accepted⟩ := parseUriAuthority_port reaches open_
  obtain ⟨takes, taken⟩ := reads (some zeroed) ⟨[], false⟩ open_
  cases lexed : lexU16 rest with
  | error ret =>
    have large : ¬ decimal (portDigits rest) ≤ 65535 := fun fits => by
      have ok := takes fits
      rw [refused ret lexed] at ok
      cases ok
    exact ⟨fun fits => absurd fits large, fun q ok => by rw [lexed] at ok; cases ok⟩
  | ok q =>
    obtain ⟨p, after⟩ := q
    have result := accepted p after lexed
    rw [reached] at result
    rw [result] at taken
    obtain ⟨behind, port⟩ := taken rfl
    refine ⟨fun _ => ⟨_, lexed⟩, fun q ok => ?_⟩
    rw [lexed] at ok
    obtain rfl := Except.ok.inj ok
    exact Prod.ext (port _ rfl) behind

theorem LexesPort.reads {text rest : Text} (reaches : hostRest inetPton text = some (':' :: rest))
    (lexes : LexesPort rest) : ReadsPort inetPton text rest := by
  intro u h open_
  obtain ⟨refused, accepted⟩ := parseUriAuthority_port reaches open_
  cases lexed : lexU16 rest with
  | error ret =>
    rw [refused ret lexed]
    refine ⟨fun fits => ?_, Bool.false_ne_true.elim⟩
    obtain ⟨q, ok⟩ := lexes.1 fits
    rw [lexed] at ok
    cases ok
  | ok q =>
    obtain ⟨p, after⟩ := q
    obtain ⟨rfl, rfl⟩ := Prod.mk.inj (lexes.2 _ lexed)
    rw [accepted _ _ lexed]
    refine ⟨fun _ => rfl, fun _ => ⟨rfl, fun r mem => ?_⟩⟩
    obtain ⟨r', -, rfl⟩ := Option.mem_map.mp mem
    rfl

/-- The port is read as the grammar has it just when its digits are plain. -/
theorem readsPort_iff (inetPton : Text → Bool) (text rest : Text)
    (reaches : hostRest inetPton text = some (':' :: rest)) :
    ReadsPort inetPton text rest ↔ PlainPort rest := by
  rw [← lexesPort_iff]
  exact ⟨fun reads => reads.lexes reaches, fun lexes => lexes.reads reaches⟩

/-- "u@h:080": the port 80 is refused for its leading zero. -/
theorem leading_zero_refused : ¬ ReadsPort (fun _ => true) "u@h:080".toList "080".toList := by
  intro reads
  have reached : (parseToPort (fun _ => true) "u@h:080".toList (some zeroed) ⟨[], false⟩).1.1 = true := by
    decide +kernel
  have refused :
      (parseUriAuthority (fun _ => true) "u@h:080".toList (some zeroed) ⟨[], false⟩).1.1 = false := by
    decide +kernel
  have ok := (reads (some zeroed) ⟨[], false⟩ reached).1 (by decide)
  rw [refused] at ok
  cases ok

theorem readsPort_iff_eighty :
    ReadsPort (fun _ => true) "u@h:80/".toList "80/".toList ↔ PlainPort "80/".toList :=
  readsPort_iff (fun _ => true) "u@h:80/".toList "80/".toList (by decide +kernel)

end Authority

end Libdank.Uri
