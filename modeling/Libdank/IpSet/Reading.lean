import Libdank.IpSet.Capacity
import Libdank.IpSet.Notations
import Libdank.IpSet.Steady
import Mathlib.Data.List.DropRight

/-! A set as `parse_ipset` reads it: first the ranges of the list, then the
bracket and the inversion. What was added when the list breaks off is not given
back; every other failure leaves the set without ranges. -/
namespace Libdank.IpSet
open Requests Buffers Parse

section Lists

variable (inetPton : Text → Option UInt32)

/-- The ranges of the list that starts `ret` characters into `buf`, and where it
ends, unless a range is missing there. -/
def rangesRead (buf : Text) (ret : ℕ) : List Iprange × Option ℕ :=
  match parseIpv4range inetPton (buf.drop ret) with
  | none => ([], none)
  | some (r, ir) =>
    if comma : buf[ret + r]? = some ',' then
      (ir :: (rangesRead buf (ret + r + 1)).1, (rangesRead buf (ret + r + 1)).2)
    else ([ir], some (ret + r))
termination_by buf.length - ret
decreasing_by
  all_goals
    have := (List.getElem?_eq_some_iff.mp comma).1
    omega

variable {inetPton}

theorem rangesRead_missing {buf : Text} {ret : ℕ}
    (missing : parseIpv4range inetPton (buf.drop ret) = none) : rangesRead inetPton buf ret = ([], none) := by
  rw [rangesRead, missing]

theorem rangesRead_comma {buf : Text} {ret r : ℕ} {ir : Iprange}
    (found : parseIpv4range inetPton (buf.drop ret) = some (r, ir)) (comma : buf[ret + r]? = some ',') :
    rangesRead inetPton buf ret =
      (ir :: (rangesRead inetPton buf (ret + r + 1)).1, (rangesRead inetPton buf (ret + r + 1)).2) := by
  rw [rangesRead, found]
  exact dif_pos comma

theorem rangesRead_last {buf : Text} {ret r : ℕ} {ir : Iprange}
    (found : parseIpv4range inetPton (buf.drop ret) = some (r, ir)) (last : buf[ret + r]? ≠ some ',') :
    rangesRead inetPton buf ret = ([ir], some (ret + r)) := by
  rw [rangesRead, found]
  exact dif_neg last

theorem rangesRead_ordered (buf : Text) (ret : ℕ) :
    ∀ ir ∈ (rangesRead inetPton buf ret).1, ir.lower ≤ ir.upper := by
  fun_induction rangesRead inetPton buf ret with
  | case1 => simp
  | case2 ret r ir found comma ih =>
    intro s hs
    rcases List.mem_cons.mp hs with rfl | hs
    · exact parseIpv4range_ordered found
    · exact ih s hs
  | case3 ret r ir found last =>
    intro s hs
    obtain rfl := List.mem_singleton.mp hs
    exact parseIpv4range_ordered found

section Passes
variable [Leftover Iprange]

theorem parseIprangesLoop_found {buf : Text} {ret r : ℕ} {ir : Iprange}
    (found : parseIpv4range inetPton (buf.drop ret) = some (r, ir)) (passes : ℕ) (is : Ipset) (h : Heap) :
    parseIprangesLoop inetPton buf (passes + 1) ret is h =
      (if (addIprange is ir h).1.1 = true then
        if buf[ret + r]? = some ',' then
          parseIprangesLoop inetPton buf passes (ret + r + 1) (addIprange is ir h).1.2
        else pure (some (ret + r), (addIprange is ir h).1.2)
      else pure (none, freeIpset (addIprange is ir h).1.2)) (addIprange is ir h).2 := by
  rw [parseIprangesLoop, found]
  rfl

/-- What the loop reads does not depend on the set or on memory: it adds the
ranges of the list in turn, and gives up when one cannot be added. -/
theorem parseIprangesLoop_eq (buf : Text) (passes ret : ℕ) (is : Ipset) (enough : buf.length - ret < passes)
    (h : Heap) :
    parseIprangesLoop inetPton buf passes ret is h =
      (untilFailure addIprange is (rangesRead inetPton buf ret).1 >>= fun q =>
        pure (if q.1 then ((rangesRead inetPton buf ret).2, q.2) else (none, freeIpset q.2))) h := by
  induction passes generalizing ret is h with
  | zero => omega
  | succ passes ih =>
    cases found : parseIpv4range inetPton (buf.drop ret) with
    | none =>
      rw [parseIprangesLoop, found, rangesRead_missing found]
      rfl
    | some q =>
      obtain ⟨r, ir⟩ := q
      rw [parseIprangesLoop_found found, bind_apply]
      by_cases comma : buf[ret + r]? = some ','
      · have inside := (List.getElem?_eq_some_iff.mp comma).1
        rw [rangesRead_comma found comma, untilFailure_cons, if_pos comma]
        by_cases ok : (addIprange is ir h).1.1 = true
        · rw [if_pos ok, if_pos ok, ih _ _ (by omega)]
          rfl
        · rw [if_neg ok, if_neg ok]
          rfl
      · rw [rangesRead_last found comma, untilFailure_cons, if_neg comma]
        by_cases ok : (addIprange is ir h).1.1 = true
        · rw [if_pos ok, if_pos ok]
          rfl
        · rw [if_neg ok, if_neg ok]
          rfl

end Passes

end Lists

def inBracket (text : Text) : Bool := text.head? = some '['

def listStart (text : Text) : Text := if inBracket text then text.tail else text

def behindList (inbracket : Bool) (text : Text) : Text :=
  if inbracket then (parseWhitespace text).tail else parseWhitespace text

theorem Canonical.rangecount_ne_zero {i : Ipset} (canonical : Canonical i.ranges) :
    i.rangecount ≠ 0 ↔ addresses i.ranges ≠ ∅ := by
  rw [Ipset.rangecount, ne_eq, ne_eq, List.length_eq_zero_iff]
  refine not_congr ⟨fun none_ => by simp [none_, addresses], fun empty => ?_⟩
  by_contra some_
  obtain ⟨r, rest, split⟩ := List.exists_cons_of_ne_nil some_
  have first : r.lower ∈ addresses i.ranges :=
    ⟨r, by simp [split], UInt32.le_refl _, canonical.ordered r (by simp [split])⟩
  rw [empty] at first
  exact first

theorem signedText_plain {b : Text} (plain : isInverted b = false) : signedText b = parseWhitespace b := by
  rw [signedText, plain, if_neg Bool.false_ne_true, parseWhitespace, parseWhitespace,
    List.dropWhile_idempotent]

theorem signedText_inverted (b : Text) :
    isInverted ('!' :: b) = true ∧ signedText ('!' :: b) = parseWhitespace b := by
  have here : parseWhitespace ('!' :: b) = '!' :: b := parseWhitespace_of_head (by simp [isspace])
  rw [signedText, isInverted, here]
  exact ⟨rfl, rfl⟩

theorem behindList_suffix (inbracket : Bool) (text : Text) : behindList inbracket text <:+ text := by
  rw [behindList]
  split_ifs
  · exact (List.tail_suffix _).trans (List.dropWhile_suffix _)
  · exact List.dropWhile_suffix _

theorem behindList_length (b : Text) (inbracket : Bool) (i : ℕ) :
    (behindList inbracket ((listStart (parseWhitespace b)).drop i)).length ≤ b.length := by
  refine ((behindList_suffix _ _).trans ((List.drop_suffix i _).trans ?_)).length_le
  have text : parseWhitespace b <:+ b := List.dropWhile_suffix _
  rw [listStart]
  split_ifs
  · exact (List.tail_suffix _).trans text
  · exact text

section Parts

variable [Leftover Iprange] (inetPton : Text → Option UInt32)

def readIpranges (text : Text) : Request (Option ℕ × Ipset) :=
  if startsWithKeyword ['a', 'n', 'y'] text then
    addIprange initIpset iprangeAll >>= fun q => pure (if q.1 then some 3 else none, q.2)
  else parseIpranges inetPton text initIpset

/-- The rest of the work, once the list has been read from `body` or has failed. -/
def afterList (start body : Text) (inbracket invert : Bool) (read : Option ℕ × Ipset) :
    Request (Option ℕ × Ipset) :=
  match read.1 with
  | none => pure (none, read.2)
  | some i => closeIpset start (body.drop i) inbracket invert read.2

def parseSigned (start : Text) (invert : Bool) (text : Text) : Request (Option ℕ × Ipset) :=
  readIpranges inetPton (listStart text) >>= afterList start (listStart text) (inBracket text) invert

variable {inetPton}

theorem readIpranges_bind (start body : Text) (inbracket invert : Bool) :
    (if startsWithKeyword ['a', 'n', 'y'] body then
      addIprange initIpset iprangeAll >>= fun q =>
        if q.1 then closeIpset start (body.drop 3) inbracket invert q.2 else pure (none, q.2)
    else parseIpranges inetPton body initIpset >>= afterList start body inbracket invert) =
    readIpranges inetPton body >>= afterList start body inbracket invert := by
  rw [readIpranges]
  split_ifs
  · funext h
    rw [bind_apply, bind_apply, bind_apply]
    obtain ⟨⟨_ | _, is⟩, h'⟩ := addIprange initIpset iprangeAll h
    · rfl
    · rfl
  · rfl

theorem parseIpset_eq (start : Text) :
    parseIpset inetPton start =
      parseSigned inetPton start (isInverted start) (signedText start) := by
  rw [parseSigned, ← readIpranges_bind]
  rfl

theorem parseIpranges_eq (text : Text) (is : Ipset) :
    parseIpranges inetPton text is = untilFailure addIprange is (rangesRead inetPton text 0).1 >>= fun q =>
      pure (if q.1 then ((rangesRead inetPton text 0).2, q.2) else (none, freeIpset q.2)) := by
  funext h
  exact parseIprangesLoop_eq text (text.length + 1) 0 is (by omega) h

theorem readIpranges_steady (text : Text) :
    Steady (fun q : Option ℕ × Ipset => q.1.isSome) (readIpranges inetPton text) := by
  refine steady_ite ?_ ?_
  · refine steady_bind (addIprange_steady _ _) (fun q => steady_pure _) fun q failed h => ?_
    rw [if_neg failed]
    exact Bool.false_ne_true
  · rw [parseIpranges_eq]
    refine steady_bind (steady_untilFailure addIprange_steady _ _) (fun q => steady_pure _)
      fun q failed h => ?_
    rw [if_neg failed]
    exact Bool.false_ne_true

theorem addIprangeAll_holds :
    Ensures Served (addIprange initIpset iprangeAll)
      (fun q h => (q.1 = true ∧ Holds Set.univ q.2 h) ∧ Tight q.2) := by
  have all : ∅ ∪ iprangeAll.addresses = Set.univ := by
    rw [Set.empty_union, Set.eq_univ_iff_forall]
    exact fun x => ⟨UInt32.zero_le, le_last x⟩
  intro h hs
  have added := change_holds (.add iprangeAll) UInt32.zero_le ∅ initIpset trivial h (holds_init h hs)
  rw [Change.effect, all] at added
  exact ⟨added, addIprangeAll_tight h⟩

/-- The set read is canonical, whether the list was well formed or not. -/
theorem readIpranges_served (text : Text) :
    Ensures Served (readIpranges inetPton text) (fun q h => ∃ s, Holds s q.2 h) := by
  refine ensures_ite (fun _ => ?_) (fun _ => ?_)
  · refine ensures_bind addIprangeAll_holds fun q => ensures_pure fun h hq => ⟨_, hq.1.2⟩
  · rw [parseIpranges_eq]
    have each : ∀ ir ∈ (rangesRead inetPton text 0).1, ∀ s i, Ensures (Holds s i) (addIprange i ir)
        (fun q h => q.1 = true ∧ Holds (s ∪ ir.addresses) q.2 h) :=
      fun ir hir s i => change_holds (.add ir) (rangesRead_ordered text 0 ir hir) s i trivial
    have loop := (untilFailure_simulates _ each ∅ initIpset).mono holds_init fun q h hq => hq
    refine ensures_bind loop fun q => ensures_pure fun h hq => ?_
    rw [if_pos hq.1]
    exact ⟨_, hq.2⟩

theorem closeIpset_eq (start text : Text) (inbracket invert : Bool) (is : Ipset) :
    closeIpset start text inbracket invert is =
      if inbracket ∧ (parseWhitespace text).head? ≠ some ']' then pure (none, freeIpset is)
      else postparseIpset is invert >>= fun q =>
        pure (if q.1 then some (start.length - (behindList inbracket text).length) else none, q.2) := rfl

def cutFromAll (is : Ipset) : Request (Bool × Ipset) :=
  addIprange initIpset iprangeAll >>= fun q =>
    if q.1 then purgeIpsets q.2 is >>= fun r => pure (r.1, if r.1 then r.2 else freeIpset is)
    else pure (false, freeIpset is)

theorem postparseIpset_eq (is : Ipset) (invert : Bool) :
    postparseIpset is invert = (if invert then cutFromAll is else pure (true, is)) >>= fun q =>
      pure (q.1 && decide (q.2.rangecount ≠ 0), q.2) := by
  cases invert with
  | false => rfl
  | true =>
    rw [postparseIpset, if_pos rfl, if_pos rfl, cutFromAll, bind_assoc]
    congr 1
    funext q
    obtain ⟨_ | _, tmp⟩ := q
    · rfl
    · rfl

theorem cutFromAll_holds {is : Ipset} (canonical : Canonical is.ranges) :
    Ensures Served (cutFromAll is) (fun q h => q.1 = true ∧ Holds (addresses is.ranges)ᶜ q.2 h) := by
  refine ensures_bind addIprangeAll_holds fun q h hq => ?_
  obtain ⟨⟨ok, holds⟩, tight⟩ := hq
  rw [if_pos ok]
  have purge : Ensures (Holds Set.univ q.2) (purgeIpsets q.2 is)
      (fun r h => r.1 = true ∧ Holds (addresses is.ranges)ᶜ r.2 h) := by
    rw [Set.compl_eq_univ_sdiff]
    exact change_holds (.purge is) canonical Set.univ q.2 tight
  have kept : Ensures (Holds Set.univ q.2)
      (purgeIpsets q.2 is >>= fun r => pure (r.1, if r.1 then r.2 else freeIpset is))
      (fun r h => r.1 = true ∧ Holds (addresses is.ranges)ᶜ r.2 h) := by
    refine ensures_bind purge fun r => ensures_pure fun h hr => ?_
    rw [if_pos hr.1]
    exact hr
  exact kept h holds

theorem postparseIpset_inverts {is : Ipset} (canonical : Canonical is.ranges) :
    Ensures Served (postparseIpset is true) (fun q _ =>
      (q.1 = true ↔ addresses is.ranges ≠ Set.univ) ∧ Canonical q.2.ranges ∧
        addresses q.2.ranges = (addresses is.ranges)ᶜ) := by
  rw [postparseIpset_eq, if_pos rfl]
  refine ensures_bind (cutFromAll_holds canonical) fun q => ensures_pure fun h hq => ?_
  obtain ⟨ok, canonical', complement, -⟩ := hq
  refine ⟨?_, canonical', complement⟩
  rw [ok, Bool.true_and, decide_eq_true_eq, canonical'.rangecount_ne_zero, complement, ne_eq, ne_eq,
    Set.compl_empty_iff]

theorem closeIpset_plain {start text : Text} {inbracket : Bool} {is s : Ipset} {n : ℕ} {h : Heap}
    (accepted : (closeIpset start text inbracket false is h).1 = (some n, s)) :
    ¬ (inbracket = true ∧ (parseWhitespace text).head? ≠ some ']') ∧ s = is ∧
      n = start.length - (behindList inbracket text).length := by
  rw [closeIpset_eq, postparseIpset_eq, if_neg Bool.false_ne_true] at accepted
  by_cases missing : inbracket = true ∧ (parseWhitespace text).head? ≠ some ']'
  · rw [if_pos missing] at accepted
    exact absurd (congrArg Prod.fst accepted) (Option.some_ne_none n).symm
  · rw [if_neg missing] at accepted
    obtain ⟨consumed, set⟩ := Prod.mk.inj accepted
    refine ⟨missing, set.symm, ?_⟩
    dsimp only at consumed
    split_ifs at consumed
    exact (Option.some.inj consumed).symm

end Parts

open scoped Zeroed

end Libdank.IpSet
