import Libdank.Addresses
import Libdank.PortSet.Canonical
import Libdank.PortSet.Parse
import Libdank.Printing

/-! The printer of `objects/portset.c`, and the way back: what it prints of a
canonical set is parsed to the same ranges. -/
namespace Libdank.PortSet
open Requests SeparatedRanges Parse Printing
open IpSet (startsWithKeyword startsWithKeyword_digit)

def portText (port : UInt16) : Text := Nat.toDigits 10 port.toNat

def portsetEmpty (ps : Portset) : Bool := ps.rangecount = 0

def portsetComplete (ps : Portset) : Bool :=
  match ps.ranges with
  | [r] => r.lower = 0 && r.upper = 65535
  | _ => false

section Printers

variable (junk : ℕ → Char)

def stringizePortrange (u : Ustring) (pr : Portrange) : Request (Bool × Ustring) := do
  let (r, u) ← printUString junk u (portText pr.lower)
  if r < 0 then pure (false, u)
  else if pr.lower ≠ pr.upper then do
    let (r, u) ← printUString junk u ('-' :: portText pr.upper)
    pure (decide (0 ≤ r), u)
  else pure (true, u)

def stringizePortset (u : Ustring) (ps : Portset) : Request (Bool × Ustring) :=
  let name := if portsetEmpty ps then some ['n', 'o', 'n', 'e']
    else if portsetComplete ps then some ['a', 'n', 'y'] else none
  match name with
  | some name => do
    let (r, u) ← printUString junk u name
    pure (decide (0 ≤ r), u)
  | none => printList junk (stringizePortrange junk) u 0 ps.ranges

end Printers

def portrangeText (pr : Portrange) : Text :=
  portText pr.lower ++ if pr.lower ≠ pr.upper then '-' :: portText pr.upper else []

def portsetText (ps : Portset) : Text :=
  if portsetEmpty ps then ['n', 'o', 'n', 'e']
  else if portsetComplete ps then ['a', 'n', 'y']
  else listText portrangeText 0 ps.ranges

theorem portText_short (port : UInt16) : (portText port).length ≤ 5 := by
  refine (Nat.length_toDigits_le_iff (by decide) (by decide)).mpr ?_
  have := port.toNat_lt
  omega

theorem stringizePortrange_served (junk : ℕ → Char) {u : Ustring} (valid : u.Valid) (pr : Portrange) :
    Ensures Served (stringizePortrange junk u pr) (Appends (· = true) u (portrangeText pr)) := by
  have lower := portText_short pr.lower
  have upper := portText_short pr.upper
  rw [stringizePortrange, portrangeText]
  refine appends_then (printUString_served junk valid (by omega)) fun q valid₁ => ?_
  by_cases wide : pr.lower ≠ pr.upper
  · rw [if_pos wide, if_pos wide]
    exact appends_last (printUString_served junk valid₁ (by rw [List.length_cons]; omega))
  · rw [if_neg wide, if_neg wide]
    exact appends_pure valid₁ rfl

theorem stringizePortset_served (junk : ℕ → Char) {u : Ustring} (valid : u.Valid) (ps : Portset) :
    Ensures Served (stringizePortset junk u ps) (Appends (· = true) u (portsetText ps)) := by
  rw [stringizePortset, portsetText]
  by_cases empty : portsetEmpty ps = true
  · simp only [if_pos empty]
    exact appends_last (printUString_served junk valid (by decide))
  · simp only [if_neg empty]
    by_cases complete : portsetComplete ps = true
    · simp only [if_pos complete]
      exact appends_last (printUString_served junk valid (by decide))
    · simp only [if_neg complete]
      exact printList_served junk (fun u pr valid => stringizePortrange_served junk valid pr)
        ps.ranges 0 valid

theorem portLoop_digits (digits : Text) {p : ℕ} {rest : Text}
    (all : ∀ c ∈ digits, isdigit c = true) (stop : ∀ c ∈ rest.head?, isdigit c = false)
    (fits : Nat.ofDigitChars 10 digits p ≤ 65535) :
    portLoop p (digits ++ rest) = some (Nat.ofDigitChars 10 digits p, digits.length) := by
  induction digits generalizing p with
  | nil =>
    cases rest with
    | nil => rfl
    | cons c rest => simp [portLoop, stop c rfl]
  | cons c digits ih =>
    rw [Nat.ofDigitChars_cons] at fits ⊢
    have inside := Lexers.le_ofDigitChars digits (10 * p + (c.toNat - '0'.toNat))
    rw [List.cons_append, portLoop, if_pos (all c (by simp)), Nat.mul_comm p 10]
    simp only [if_neg (not_lt.mpr (inside.trans fits)), ih (fun d hd => all d (by simp [hd])) fits]
    rfl

theorem portText_length (port : UInt16) : 0 < (portText port).length := Nat.length_toDigits_pos

theorem parsePort_portText (port : UInt16) {rest : Text}
    (stop : ∀ c ∈ rest.head?, isdigit c = false) :
    parsePort (portText port ++ rest) = some ((portText port).length, port) := by
  have fits : Nat.ofDigitChars 10 (portText port) 0 ≤ 65535 := by
    have := port.toNat_lt
    rw [portText, Nat.ofDigitChars_ten_toDigits]
    omega
  have read := portLoop_digits (portText port) (fun c hc => isdigit_of_mem_toDigits hc) stop fits
  have some_ := portText_length port
  rw [parsePort, read, Option.bind_some]
  dsimp only
  rw [if_neg (by omega), portText, Nat.ofDigitChars_ten_toDigits, UInt16.ofNat_toNat]

theorem portText_shape (port : UInt16) :
    ∃ c rest, portText port = c :: rest ∧ isdigit c = true := by
  obtain ⟨c, rest, shape⟩ := List.exists_cons_of_ne_nil (@Nat.toDigits_ne_nil port.toNat 10)
  exact ⟨c, rest, shape, isdigit_of_mem_toDigits (by rw [shape]; exact List.mem_cons_self)⟩

theorem portrangeText_shape (pr : Portrange) :
    ∃ c rest, portrangeText pr = c :: rest ∧ isdigit c = true := by
  obtain ⟨c, rest, shape, digit⟩ := portText_shape pr.lower
  exact ⟨c, _, by rw [portrangeText, shape, List.cons_append], digit⟩

def Ends (rest : Text) : Prop := ∀ c ∈ rest.head?, c = ','

theorem portrangeDone_ends {text rest : Text} (ends : Ends rest) (pr : Portrange) :
    portrangeDone (text ++ rest) rest pr = some (text.length, pr) := by
  cases rest with
  | nil => simp [portrangeDone]
  | cons c rest =>
    obtain rfl := ends c rfl
    simp [portrangeDone]

theorem Ends.not_digit {rest : Text} (ends : Ends rest) : ∀ c ∈ rest.head?, isdigit c = false := by
  intro c hc
  obtain rfl := ends c hc
  decide

theorem parsePortrange_printed {pr : Portrange} (ordered : pr.lower ≤ pr.upper) {rest : Text}
    (ends : Ends rest) :
    parsePortrange (portrangeText pr ++ rest) = some ((portrangeText pr).length, pr) := by
  obtain ⟨lower, upper⟩ := pr
  obtain ⟨c, tail, shape, digit⟩ := portText_shape lower
  have here (after : Text) : parseWhitespace (portText lower ++ after) = portText lower ++ after :=
    parseWhitespace_of_head (by simp [shape, Lexers.isspace_of_isdigit digit])
  have first (after : Text) : ¬ ((portText lower ++ after).head? = some ':' ∨
      (portText lower ++ after).head? = some '-') := by
    rw [shape]
    rintro (h | h)
    all_goals
      obtain rfl := Option.some.inj h
      exact absurd digit (by decide)
  by_cases wide : lower ≠ upper
  · have text : portrangeText ⟨lower, upper⟩ = portText lower ++ '-' :: portText upper := by
      rw [portrangeText, if_pos wide]
    have second : ((portText upper ++ rest).head?.map isdigit).getD false = true := by
      obtain ⟨c, tail, shape, digit⟩ := portText_shape upper
      simp [shape, digit]
    have sorted : ¬ lower > upper := UInt16.not_lt.mpr ordered
    have dash : ∀ c ∈ ('-' :: (portText upper ++ rest)).head?, isdigit c = false := by
      simp only [List.head?_cons, Option.mem_some_iff, forall_eq']
      decide
    rw [text, List.append_assoc, List.cons_append, parsePortrange, here]
    simp only [if_neg (first _), parsePort_portText lower dash, Option.bind_some, List.drop_left,
      List.head?_cons, List.tail_cons, true_or, second, and_self, if_true,
      parsePort_portText upper ends.not_digit, if_neg sorted]
    rw [← List.cons_append, ← List.append_assoc, portrangeDone_ends ends]
  · obtain rfl : lower = upper := not_not.mp wide
    have text : portrangeText ⟨lower, lower⟩ = portText lower := by simp [portrangeText]
    have plain : ¬ rest.head? = some '-' ∧ ¬ rest.head? = some ':' := by
      cases rest with
      | nil => simp
      | cons c rest =>
        obtain rfl := ends c rfl
        simp
    rw [text, parsePortrange, here]
    simp only [if_neg (first rest), parsePort_portText lower ends.not_digit, Option.bind_some,
      List.drop_left, plain.1, plain.2, or_false, false_and, if_false]
    exact portrangeDone_ends ends _

theorem Canonical.past {before after : List Portrange} {r : Portrange}
    (canonical : Canonical (before ++ r :: after)) :
    ∀ s ∈ before, s.upper.toNat + 1 < r.lower.toNat :=
  fun s hs => (List.pairwise_append.mp canonical.apart).2.2 s hs r (by simp)

theorem mergePortset_after {p : Portset} {pr : Portrange} (ordered : pr.lower ≤ pr.upper)
    (past : ∀ r ∈ p.ranges, r.upper.toNat + 1 < pr.lower.toNat) :
    Ensures Served (mergePortset p pr) (fun q h =>
      q.1 = true ∧ q.2.ranges = p.ranges ++ [pr] ∧ Served h) := by
  have fits : Fits p pr := by
    intro zero first here
    have above := past first (List.mem_of_mem_head? here)
    have := UInt16.le_iff_toNat_le.mp ordered
    rw [zero] at this
    simp only [UInt16.reduceToNat] at this
    omega
  refine (mergePortset_served p pr ordered fits).mono (fun _ hs => hs) fun q h becomes => ?_
  obtain ⟨ok, spans, -, hs⟩ := becomes
  exact ⟨ok, eq_append_of_adjoin span_injective spans past, hs⟩

theorem numericPortsLoop_step {r : Portrange} {rest : Text} {tmp : Portset} {passes : ℕ}
    {need : Bool} {post : Option (Bool × Text) × Portset → Heap → Prop}
    (ends : Ends rest) (ordered : r.lower ≤ r.upper)
    (past : ∀ s ∈ tmp.ranges, s.upper.toNat + 1 < r.lower.toNat)
    (next : ∀ tmp' : Portset, tmp'.ranges = tmp.ranges ++ [r] → Ensures Served
      (if rest.head? = some ',' then numericPortsLoop passes rest.tail need tmp'
      else numericPortsLoop passes rest false tmp') post) :
    Ensures Served (numericPortsLoop (passes + 1) (portrangeText r ++ rest) need tmp) post := by
  rw [numericPortsLoop, parsePortrange_printed ordered ends]
  refine ensures_bind (mergePortset_after ordered past) fun q h hq => ?_
  obtain ⟨ok, tmp'⟩ := q
  obtain ⟨rfl, ranges, hs⟩ := hq
  dsimp only
  rw [List.drop_left]
  exact next tmp' ranges h hs

def listEnd (rs : List Portrange) : Text := rs.flatMap fun pr => ',' :: portrangeText pr

theorem ends_listEnd (rs : List Portrange) : Ends (listEnd rs) := by
  cases rs with
  | nil => simp [Ends, listEnd]
  | cons s rs => simp [Ends, listEnd]

theorem numericPortsLoop_served (rs : List Portrange) {r : Portrange} {tmp : Portset} {passes : ℕ}
    (need : Bool) (canonical : Canonical (tmp.ranges ++ r :: rs)) (enough : rs.length + 1 < passes) :
    Ensures Served (numericPortsLoop passes (portrangeText r ++ listEnd rs) need tmp)
      (fun q h => q.1 = some (false, []) ∧ q.2.ranges = tmp.ranges ++ r :: rs ∧ Served h) := by
  induction rs generalizing r tmp passes with
  | nil =>
    obtain ⟨p, rfl⟩ := Nat.exists_eq_add_of_lt enough
    refine numericPortsLoop_step (ends_listEnd []) (canonical.ordered r (by simp))
      canonical.past fun tmp' ranges => ?_
    rw [if_neg (by simp [listEnd])]
    have stop : parsePortrange [] = none := by decide
    have last : ([] : List Portrange).length + 1 + p = p + 1 := by simp [Nat.add_comm]
    rw [last, listEnd, List.flatMap_nil, numericPortsLoop, stop]
    exact ensures_pure fun h hs => ⟨rfl, ranges, hs⟩
  | cons s rs ih =>
    obtain ⟨p, rfl⟩ := Nat.exists_eq_add_of_lt enough
    refine numericPortsLoop_step (ends_listEnd _) (canonical.ordered r (by simp))
      canonical.past fun tmp' ranges => ?_
    have more : (listEnd (s :: rs)).tail = portrangeText s ++ listEnd rs := by simp [listEnd]
    rw [if_pos (by simp [listEnd]), more]
    refine (ih (by rw [ranges]; simpa using canonical) (by simp; omega)).mono (fun _ hs => hs)
      fun q h hq => ?_
    obtain ⟨read, all, hs⟩ := hq
    exact ⟨read, by rw [all, ranges, List.append_assoc, List.singleton_append], hs⟩

theorem parseNumericPorts_served {r : Portrange} {rs : List Portrange}
    (canonical : Canonical (r :: rs)) :
    Ensures Served (parseNumericPorts (portrangeText r ++ listEnd rs)) (fun q h =>
      q = (some ⟨r :: rs⟩, []) ∧ Served h) := by
  have shape := portText_length r.lower
  have enough : rs.length ≤ (listEnd rs).length := length_le_flatMap portrangeText rs
  refine ensures_bind (@numericPortsLoop_served rs r initPortset _ true canonical (by
    rw [portrangeText, List.append_assoc, List.length_append, List.length_append]
    omega)) fun q h hq => ?_
  obtain ⟨parsed, tmp⟩ := q
  obtain ⟨rfl, ranges, hs⟩ := hq
  obtain rfl : tmp = ⟨r :: rs⟩ := congrArg Portset.mk ranges
  have copied : Ensures Served (do
      if ← allocate sizeofPortset then pure (some ⟨r :: rs⟩, []) else pure (none, []))
      (fun (q : Option Portset × Text) h => q = (some ⟨r :: rs⟩, []) ∧ Served h) := by
    refine ensures_bind (allocate_served (by simp [sizeofPortset])) fun ok h hq => ?_
    obtain ⟨rfl, hs⟩ := hq
    exact ⟨rfl, hs⟩
  exact copied h hs

theorem eq_of_complete {ps : Portset} (complete : portsetComplete ps = true) :
    ps.ranges = [portrangeAll] := by
  unfold portsetComplete at complete
  split at complete
  · rename_i r single
    obtain ⟨lower, upper⟩ := by simpa using complete
    rw [single, portrangeAll, ← lower, ← upper]
  · exact absurd complete (by decide)

theorem parsePortset_portsetText {ps : Portset} (canonical : Canonical ps.ranges) :
    Ensures Served (parsePortset (portsetText ps) initPortset) (fun q _ =>
      q.1 = some (portsetText ps).length ∧ q.2.ranges = ps.ranges) := by
  obtain ⟨ranges⟩ := ps
  cases ranges with
  | nil => exact ensures_pure fun h hs => ⟨rfl, rfl⟩
  | cons r rs =>
    have some_ : ¬ portsetEmpty ⟨r :: rs⟩ = true := by simp [portsetEmpty, Portset.rangecount]
    by_cases complete : portsetComplete ⟨r :: rs⟩ = true
    · have text : portsetText ⟨r :: rs⟩ = ['a', 'n', 'y'] := by
        rw [portsetText, if_neg some_, if_pos complete]
      have all : r :: rs = [portrangeAll] := eq_of_complete complete
      have any : parsePortset ['a', 'n', 'y'] initPortset =
          mergePortset initPortset portrangeAll >>= fun q =>
            if q.1 then pure (some 3, q.2) else pure (none, freePortset q.2) := rfl
      rw [text, any]
      refine ensures_bind (@mergePortset_after initPortset portrangeAll (by decide) (by
        simp [initPortset])) fun q h hq => ?_
      obtain ⟨ok, ports⟩ := q
      obtain ⟨rfl, ranges, hs⟩ := hq
      exact ⟨rfl, by rw [all]; exact ranges⟩
    · have text : portsetText ⟨r :: rs⟩ = portrangeText r ++ listEnd rs := by
        rw [portsetText, if_neg some_, if_neg complete, listText_zero, listText_succ]
        rfl
      obtain ⟨c, tail, shape, digit⟩ := portrangeText_shape r
      have read := parseNumericPorts_served canonical
      rw [text]
      rw [shape, List.cons_append] at read ⊢
      generalize tail ++ listEnd rs = after at read ⊢
      have here : parseWhitespace (c :: after) = c :: after :=
        parseWhitespace_of_head (by simp [Lexers.isspace_of_isdigit digit])
      have invert : decide ((c :: after).head? = some '!') = false := by
        refine decide_eq_false fun same => ?_
        obtain rfl := Option.some.inj same
        exact absurd digit (by decide)
      rw [parsePortset, here]
      simp only [invert, Bool.false_eq_true, if_false, here]
      rw [if_neg (startsWithKeyword_digit digit (by decide) _ _),
        if_neg (startsWithKeyword_digit digit (by decide) _ _)]
      refine ensures_bind read fun q h hq => ?_
      obtain ⟨parsed, text⟩ := q
      obtain ⟨same, hs⟩ := hq
      obtain ⟨rfl, rfl⟩ := Prod.mk.inj same
      exact ⟨rfl, rfl⟩

/-- What is printed of a canonical set, to whatever string, is accepted and
consumed as a whole, and comes back range by range. -/
theorem stringizePortset_roundTrip (junk : ℕ → Char) {ps : Portset} (canonical : Canonical ps.ranges)
    {u : Ustring} (valid : u.Valid) :
    ∃ text, Ensures Served (stringizePortset junk u ps) (Appends (· = true) u text) ∧
      Ensures Served (parsePortset text initPortset) (fun q _ =>
        q.1 = some text.length ∧ q.2.ranges = ps.ranges) :=
  ⟨portsetText ps, stringizePortset_served junk valid ps, parsePortset_portsetText canonical⟩

/-- The first and the last port, and a range between. -/
theorem stringizePortset_roundTrip_ends :
    ∃ text, Ensures Served
        (stringizePortset (fun _ => 'x') initUstring ⟨[⟨0, 0⟩, ⟨80, 443⟩, ⟨65535, 65535⟩]⟩)
        (Appends (· = true) initUstring text) ∧
      Ensures Served (parsePortset text initPortset) (fun q _ =>
        q.1 = some text.length ∧ q.2.ranges = [⟨0, 0⟩, ⟨80, 443⟩, ⟨65535, 65535⟩]) :=
  stringizePortset_roundTrip _ ⟨by simp, by simp⟩ valid_init

end Libdank.PortSet
