import Libdank.IpSet.Notations
import Libdank.Printing

/-! The printer of `objects/ipset.c`, and the way back: what it prints of a
canonical set is parsed to the same ranges. -/
namespace Libdank.IpSet
open Requests Buffers SeparatedRanges Parse Printing

section Printers

variable (junk : ℕ → Char)

/-- A buffer of `INET_ADDRSTRLEN` holds every address, so `inet_ntop` does not fail. -/
def stringizeIprange (u : Ustring) (ir : Iprange) : Request (Bool × Ustring) := do
  let (r, u) ← printUString junk u (inetNtop (htonl ir.lower))
  if r < 0 then pure (false, u)
  else if ir.upper ≠ ir.lower then do
    let (r, u) ← printUString junk u ('-' :: inetNtop (htonl ir.upper))
    pure (decide (0 ≤ r), u)
  else pure (true, u)

def stringizeIpset (u : Ustring) (is : Ipset) : Request (Bool × Ustring) := do
  let (r, u) ← printUString junk u ['[']
  if r < 0 then pure (false, u)
  else do
    let (ok, u) ← printList junk (stringizeIprange junk) u 0 is.ranges
    if ok then do
      let (r, u) ← printUString junk u [']']
      pure (decide (0 ≤ r), u)
    else pure (false, u)

end Printers

def printed (ir : Iprange) : RangeText :=
  if ir.upper ≠ ir.lower then .closed ir.lower .dash ir.upper else .single ir.lower

def ipsetText (rs : List Iprange) : Text :=
  '[' :: (listText (fun ir => (printed ir).text) 0 rs ++ [']'])

theorem stringizeIprange_served (junk : ℕ → Char) {u : Ustring} (valid : u.Valid) (ir : Iprange) :
    Ensures Served (stringizeIprange junk u ir) (Appends (· = true) u (printed ir).text) := by
  have lower := (dottedQuad_length ir.lower).2
  have upper := (dottedQuad_length ir.upper).2
  rw [stringizeIprange, inetNtop_htonl, inetNtop_htonl, printed]
  by_cases wide : ir.upper ≠ ir.lower
  · simp only [if_pos wide]
    exact appends_then (printUString_served junk valid (by omega)) fun q valid₁ =>
      appends_last (printUString_served junk valid₁ (by rw [List.length_cons]; omega))
  · simp only [if_neg wide]
    have whole : (RangeText.single ir.lower).text = dottedQuad ir.lower ++ [] :=
      (List.append_nil _).symm
    rw [whole]
    exact appends_then (printUString_served junk valid (by omega)) fun q valid₁ => appends_pure valid₁ rfl

theorem stringizeIpset_served (junk : ℕ → Char) {u : Ustring} (valid : u.Valid) (is : Ipset) :
    Ensures Served (stringizeIpset junk u is) (Appends (· = true) u (ipsetText is.ranges)) := by
  rw [stringizeIpset, ipsetText, ← List.singleton_append]
  refine appends_then (printUString_served junk valid (by decide)) fun q valid₁ => ?_
  refine appends_bind (printList_served junk (fun u ir valid => stringizeIprange_served junk valid ir)
    is.ranges 0 valid₁) fun q ok valid₂ => ?_
  obtain ⟨done_, u₂⟩ := q
  dsimp only at ok ⊢
  rw [if_pos ok]
  exact appends_last (printUString_served junk valid₂ (by decide))

theorem Canonical.past {before after : List Iprange} {r : Iprange}
    (canonical : Canonical (before ++ r :: after)) :
    ∀ s ∈ before, s.upper.toNat + 1 < r.lower.toNat :=
  fun s hs => (List.pairwise_append.mp canonical.apart).2.2 s hs r (by simp)

theorem addIprange_after [Leftover Iprange] {is : Ipset} {ir : Iprange} (fits : Capacity is)
    (past : ∀ r ∈ is.ranges, r.upper.toNat + 1 < ir.lower.toNat) :
    Ensures Served (addIprange is ir) (fun q h =>
      q.1 = true ∧ q.2.ranges = is.ranges ++ [ir] ∧ Capacity q.2 ∧ Served h) := by
  refine (addIprange_served is ir fits).mono (fun _ hs => hs) fun q h becomes => ?_
  obtain ⟨ok, spans, fits', hs⟩ := becomes
  exact ⟨ok, eq_append_of_adjoin span_injective spans past, fits', hs⟩

theorem parse_printed {inetPton : Text → Option UInt32}
    (inverse : ∀ s, inetPton (inetNtop s) = some s) {ir : Iprange} (ordered : ir.lower ≤ ir.upper)
    {rest : Text} (ends : Ends rest) :
    parseIpv4range inetPton ((printed ir).text ++ rest) = some ((printed ir).text.length, ir) := by
  rw [printed]
  by_cases wide : ir.upper ≠ ir.lower
  · have low : min ir.lower ir.upper = ir.lower := if_pos ordered
    have high : max ir.lower ir.upper = ir.upper := if_pos ordered
    rw [if_pos wide]
    refine (parse_closed inverse ends ir.lower ir.upper .dash).trans ?_
    rw [low, high]
    rfl
  · rw [if_neg wide]
    refine (parse_single inverse ends ir.lower).trans ?_
    obtain ⟨lower, upper⟩ := ir
    obtain rfl : upper = lower := not_not.mp wide
    rfl

theorem parseIprangesLoop_step [Leftover Iprange] {inetPton : Text → Option UInt32}
    (inverse : ∀ s, inetPton (inetNtop s) = some s) {pre rest buf : Text} {r : Iprange} {is : Ipset}
    {passes : ℕ} {post : Option ℕ × Ipset → Heap → Prop}
    (split : buf = pre ++ ((printed r).text ++ rest)) (ends : Ends rest)
    (ordered : r.lower ≤ r.upper) (past : ∀ s ∈ is.ranges, s.upper.toNat + 1 < r.lower.toNat)
    (fits : Capacity is)
    (next : ∀ is' : Ipset, is'.ranges = is.ranges ++ [r] → Capacity is' → Ensures Served
      (if rest.head? = some ',' then
        parseIprangesLoop inetPton buf passes (pre.length + (printed r).text.length + 1) is'
      else pure (some (pre.length + (printed r).text.length), is')) post) :
    Ensures Served (parseIprangesLoop inetPton buf (passes + 1) pre.length is) post := by
  have first : parseIpv4range inetPton (buf.drop pre.length) =
      some ((printed r).text.length, r) := by
    rw [split, List.drop_left]
    exact parse_printed inverse ordered ends
  have after : buf[pre.length + (printed r).text.length]? = rest.head? := by
    rw [split, ← List.append_assoc, ← List.length_append, List.getElem?_append_right le_rfl,
      Nat.sub_self, List.head?_eq_getElem?]
  rw [parseIprangesLoop, first]
  refine ensures_bind (addIprange_after fits past) fun q h hq => ?_
  obtain ⟨ok, is'⟩ := q
  obtain ⟨rfl, ranges, fits', hs⟩ := hq
  rw [after]
  exact next is' ranges fits' h hs

def listEnd (rs : List Iprange) : Text := (rs.flatMap fun ir => ',' :: (printed ir).text) ++ [']']

theorem ends_listEnd (rs : List Iprange) : Ends (listEnd rs) := by
  cases rs with
  | nil => simp [Ends, rangeEnd, listEnd]
  | cons s rs => simp [Ends, rangeEnd, listEnd]

theorem parseIprangesLoop_served [Leftover Iprange] {inetPton : Text → Option UInt32}
    (inverse : ∀ s, inetPton (inetNtop s) = some s) (rs : List Iprange) {pre buf : Text}
    {r : Iprange} {is : Ipset} {passes : ℕ}
    (split : buf = pre ++ ((printed r).text ++ listEnd rs))
    (canonical : Canonical (is.ranges ++ r :: rs)) (fits : Capacity is)
    (enough : rs.length < passes) :
    Ensures Served (parseIprangesLoop inetPton buf passes pre.length is) (fun q h =>
      q.1 = some (buf.length - 1) ∧ q.2.ranges = is.ranges ++ r :: rs ∧ Capacity q.2 ∧ Served h) := by
  induction rs generalizing pre r is passes with
  | nil =>
    obtain ⟨p, rfl⟩ := Nat.exists_eq_add_of_lt enough
    refine parseIprangesLoop_step inverse split (ends_listEnd []) (canonical.ordered r (by simp))
      canonical.past fits fun is' ranges fits' => ?_
    rw [if_neg (by simp [listEnd])]
    refine ensures_pure fun h hs => ⟨?_, ranges, fits', hs⟩
    rw [split]
    simp [listEnd]
  | cons s rs ih =>
    obtain ⟨p, rfl⟩ := Nat.exists_eq_add_of_lt enough
    refine parseIprangesLoop_step inverse split (ends_listEnd _) (canonical.ordered r (by simp))
      canonical.past fits fun is' ranges fits' => ?_
    rw [if_pos (by simp [listEnd])]
    have rest := @ih (pre ++ (printed r).text ++ [',']) s is' (rs.length + 1 + p)
      (by rw [split]; simp [listEnd]) (by rw [ranges]; simpa using canonical) fits'
      (by omega)
    rw [List.length_append, List.length_append, List.length_singleton] at rest
    refine rest.mono (fun _ hs => hs) fun q h hq => ?_
    obtain ⟨read, all, fits'', hs⟩ := hq
    exact ⟨read, by rw [all, ranges, List.append_assoc, List.singleton_append], fits'', hs⟩

theorem ipsetText_cons (r : Iprange) (rs : List Iprange) :
    ipsetText (r :: rs) = '[' :: ((printed r).text ++ listEnd rs) := by
  simp [ipsetText, listEnd]

theorem length_listEnd (rs : List Iprange) : rs.length < (listEnd rs).length := by
  have commas := length_le_flatMap (fun ir => (printed ir).text) rs
  rw [listEnd, List.length_append, List.length_singleton]
  omega

theorem printed_head (r : Iprange) : ∃ c rest, (printed r).text = c :: rest ∧ isdigit c = true := by
  obtain ⟨c, rest, shape, digit⟩ := dottedQuad_shape r.lower
  rw [printed]
  split_ifs
  · exact ⟨c, _, by rw [RangeText.text, shape, List.cons_append], digit⟩
  · exact ⟨c, rest, shape, digit⟩

/-- The text of a canonical set is read to its end, and gives the set back. -/
theorem parseIpset_ipsetText [Leftover Iprange] {inetPton : Text → Option UInt32}
    (inverse : ∀ s, inetPton (inetNtop s) = some s) {rs : List Iprange} (canonical : Canonical rs)
    (nonempty : rs ≠ []) :
    Ensures Served (parseIpset inetPton (ipsetText rs)) (fun q _ =>
      q.1 = some (ipsetText rs).length ∧ q.2.ranges = rs) := by
  obtain ⟨r, rs, rfl⟩ := List.exists_cons_of_ne_nil nonempty
  rw [ipsetText_cons]
  have plain : ¬ startsWithKeyword ['a', 'n', 'y'] ((printed r).text ++ listEnd rs) = true := by
    obtain ⟨c, rest, shape, digit⟩ := printed_head r
    rw [shape, List.cons_append]
    exact startsWithKeyword_digit digit (by decide) _ _
  have last : ((printed r).text ++ listEnd rs).drop (((printed r).text ++ listEnd rs).length - 1) =
      [']'] := by
    rw [listEnd, ← List.append_assoc, List.length_append, List.length_singleton,
      Nat.add_sub_cancel, List.drop_left]
  have read := @parseIprangesLoop_served _ _ inverse rs [] _ r initIpset
    (((printed r).text ++ listEnd rs).length + 1) rfl canonical capacity_init (by
      have := length_listEnd rs
      rw [List.length_append]
      omega)
  rw [List.nil_append] at read
  have opened : parseWhitespace ('[' :: ((printed r).text ++ listEnd rs)) =
      '[' :: ((printed r).text ++ listEnd rs) := parseWhitespace_of_head (by simp [isspace])
  generalize (printed r).text ++ listEnd rs = body at plain last read opened
  have empty : ({ initIpset with ranges := [] } : Ipset) = initIpset := rfl
  rw [parseIpset, parseInitializedIpset, empty, opened]
  simp only [List.head?_cons, List.tail_cons, Option.some.injEq, Char.reduceEq, decide_false,
    decide_true, if_true, Bool.false_eq_true, if_false, opened]
  rw [if_neg plain]
  refine ensures_bind read fun q h hq => ?_
  obtain ⟨read, is⟩ := q
  obtain ⟨rfl, ranges, -, hs⟩ := hq
  dsimp only
  have some_ : is.rangecount ≠ 0 := by
    rw [Ipset.rangecount, ranges]
    simp
  have close : parseWhitespace [']'] = [']'] := by decide
  simp only [closeIpset, last, close]
  simp only [postparseIpset, Bool.false_eq_true, if_false]
  simp [some_]
  exact ⟨rfl, ranges⟩

open scoped Zeroed

end Libdank.IpSet
