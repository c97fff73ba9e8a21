import Libdank.Carving.Cursors

/-! Lists separated by commas. The loop of `carve_comma_list` runs over the
characters of a list, writes a NUL over every comma and counts them. -/
namespace Libdank.Carving
open Requests Parse Printing

/-- The characters of a list once the loop has passed. -/
def cut (run : Text) : Text := run.map fun c => if c = ',' then nul else c

theorem cut_cons (c : Char) (run : Text) :
    cut (c :: run) = (if c = ',' then nul else c) :: cut run := rfl

@[simp] theorem length_cut (run : Text) : (cut run).length = run.length := List.length_map _

theorem cut_append (first second : Text) : cut (first ++ second) = cut first ++ cut second :=
  List.map_append

theorem cut_of_not_mem {run : Text} (absent : ',' ∉ run) : cut run = run := by
  refine List.map_congr_left (fun c hc => if_neg ?_) |>.trans (List.map_id run)
  rintro rfl
  exact absent hc

theorem comma_not_mem_cut (run : Text) : ',' ∉ cut run := by
  intro mem
  obtain ⟨c, -, eq⟩ := List.mem_map.mp mem
  split_ifs at eq with h
  · exact absurd eq (by decide)
  · exact h eq

theorem listCharset_of_isspace {c : Char} (space : isspace c = true) : listCharset c = false := by
  have other : c ≠ ',' := by
    rintro rfl
    exact absurd space (by decide)
  simp [listCharset, carveCharset, space, other]

section Loop

variable {rest : Text} (stop : ∀ c ∈ rest.head?, listCharset c = false)
include stop

theorem commaLoop_run {run : Text} (all : ∀ c ∈ run, listCharset c = true) (pre : Text)
    (prev : Char) {tokens passes : ℕ} (small : tokens < 2 ^ 31) (enough : run.length < passes) :
    commaLoop passes ⟨pre ++ (run ++ rest), pre.length, tokens, decide (prev ≠ ',')⟩ =
      if tokens + run.count ',' < 2 ^ 31 then
        some ⟨pre ++ (cut run ++ rest), pre.length + run.length, tokens + run.count ',',
          decide (run.getLastD prev ≠ ',')⟩
      else none := by
  induction run generalizing pre prev tokens passes with
  | nil =>
    obtain ⟨passes, rfl⟩ : ∃ n, passes = n + 1 := ⟨passes - 1, by omega⟩
    have fails : listCharset (rest.headD nul) = false := by
      cases rest with
      | nil => exact listCharset_nul
      | cons c rest => exact stop c rfl
    have ends : (⟨pre ++ rest, pre.length, tokens, decide (prev ≠ ',')⟩ : Listing).deref =
        rest.headD nul := getD_length nul
    rw [List.nil_append, commaLoop, ends, if_neg (Bool.eq_false_iff.mp fails),
      if_pos (by simpa using small)]
    rfl
  | cons c run ih =>
    obtain ⟨passes, rfl⟩ : ∃ n, passes = n + 1 := ⟨passes - 1, by omega⟩
    have here : (⟨pre ++ (c :: run ++ rest), pre.length, tokens, decide (prev ≠ ',')⟩ : Listing).deref = c :=
      getD_at nul
    -- `c` is behind and has become `x`
    have next (x : Char) {tokens : ℕ} (small : tokens < 2 ^ 31) :=
      ih (fun y hy => all y (by simp [hy])) (pre ++ [x]) c small (Nat.lt_of_succ_lt_succ enough)
    have shift (x : Char) (l : Text) : pre ++ [x] ++ l = pre ++ (x :: l) := by simp
    simp only [shift, List.length_append, List.length_singleton] at next
    rw [commaLoop, here, if_pos (all c (by simp)), List.getLastD_cons, cut_cons, List.cons_append,
      List.cons_append, List.length_cons, Nat.add_comm run.length, ← Nat.add_assoc]
    by_cases comma : c = ','
    · have count : (c :: run).count ',' = 1 + run.count ',' := by
        rw [comma, List.count_cons_self, Nat.add_comm]
      rw [if_pos comma, if_pos comma, countToken, count, ← Nat.add_assoc, set_at]
      by_cases fits : tokens + 1 < 2 ^ 31
      · rw [if_pos fits]
        have run_eq := next nul fits
        rw [comma] at run_eq ⊢
        exact run_eq
      · rw [if_neg fits, if_neg (by omega)]
        rfl
    · rw [if_neg comma, if_neg comma, List.count_cons_of_ne comma]
      have run_eq := next c small
      rw [decide_eq_true comma] at run_eq
      exact run_eq

end Loop

section Restoring

variable {buf : Text} {cur : ℕ}

theorem restoreCommas_zero : restoreCommas buf cur 0 = buf := by cases cur <;> rfl

theorem restoreCommas_nul (comma : buf.getD cur nul = nul) (tokens : ℕ) :
    restoreCommas buf (cur + 1) (tokens + 1) = restoreCommas (buf.set cur ',') cur tokens := by
  rw [restoreCommas, if_pos comma]

theorem restoreCommas_other (other : buf.getD cur nul ≠ nul) (tokens : ℕ) :
    restoreCommas buf (cur + 1) tokens = restoreCommas buf cur tokens := by
  cases tokens with
  | zero => rw [restoreCommas_zero, restoreCommas_zero]
  | succ tokens => rw [restoreCommas, if_neg other]

theorem restoreCommas_cut (pre rest : Text) {run : Text} (nulFree : nul ∉ run) :
    restoreCommas (pre ++ (cut run ++ rest)) (pre.length + run.length) (run.count ',') =
      pre ++ (run ++ rest) := by
  induction run using List.reverseRecOn generalizing rest with
  | nil => exact restoreCommas_zero
  | append_singleton run c ih =>
    have shift (x : Char) : pre ++ (cut run ++ [x] ++ rest) = pre ++ cut run ++ x :: rest := by simp
    have place : pre.length + run.length = (pre ++ cut run).length := by simp
    have before := ih (c :: rest) fun h => nulFree (by simp [h])
    rw [List.append_assoc run, List.singleton_append, ← before, cut_append,
      show cut [c] = [if c = ',' then nul else c] from rfl, shift, List.length_append,
      List.length_singleton, ← Nat.add_assoc, List.count_append, place, ← List.append_assoc pre]
    by_cases comma : c = ','
    · subst comma
      rw [if_pos rfl, List.count_singleton_self, restoreCommas_nul (getD_at nul), set_at]
    · have other : c ≠ nul := fun h => nulFree (by simp [h])
      have uncounted : [c].count ',' = 0 := List.count_eq_zero.mpr (by simpa using Ne.symm comma)
      rw [if_neg comma, uncounted, restoreCommas_other (by rwa [getD_at])]
      rfl

end Restoring

section Endings

variable {pre run rest : Text} {left : Pointer (Pointer ℕ)}

theorem carveCommaList_eq (all : ∀ c ∈ run, listCharset c = true)
    (stop : listCharset (rest.headD nul) = false) :
    carveCommaList ⟨pre ++ (run ++ rest), pre.length⟩ left =
      if run.count ',' < 2 ^ 31 then
        if rest.headD nul ≠ nul then
          if isspace (rest.headD nul) then
            some ⟨run.count ',', left.map fun _ => some (pre.length + run.length + 1),
              (pre ++ (cut run ++ rest)).set (pre.length + run.length) nul⟩
          else some ⟨-1, left, restoreCommas (pre ++ (cut run ++ rest)) (pre.length + run.length)
            (run.count ',')⟩
        else if run.getLastD ',' = ',' then some ⟨-1, left, pre ++ (cut run ++ rest)⟩
        else (countToken (run.count ',')).map fun tokens =>
          ⟨tokens, left.map fun _ => some (pre.length + run.length), pre ++ (cut run ++ rest)⟩
      else none := by
  have ends : ∀ c ∈ rest.head?, listCharset c = false := by
    intro c hc
    rwa [List.headD_eq_head?_getD, hc] at stop
  let l : Listing := ⟨pre ++ (cut run ++ rest), pre.length + run.length, run.count ',',
    decide (run.getLastD ',' ≠ ',')⟩
  have loop : commaLoop ((pre ++ (run ++ rest)).length + 1)
      ⟨pre ++ (run ++ rest), pre.length, 0, false⟩ =
      if run.count ',' < 2 ^ 31 then some l else none := by
    have run_eq := commaLoop_run ends all pre ',' (by decide : 0 < 2 ^ 31)
      (by simp; omega : run.length < (pre ++ (run ++ rest)).length + 1)
    rwa [Nat.zero_add] at run_eq
  have behind : l.deref = rest.headD nul := by
    have place : pre.length + run.length = (pre ++ cut run).length := by simp
    simp only [l, Listing.deref, place, ← List.append_assoc]
    exact getD_length nul
  rw [carveCommaList, loop]
  by_cases few : run.count ',' < 2 ^ 31
  · simp only [if_pos few, Option.bind_eq_bind, Option.bind_some, behind, l, decide_eq_false_iff_not,
      not_not, Option.map_eq_bind]
    rfl
  · simp only [if_neg few, Option.bind_eq_bind, Option.bind_none]

end Endings

section Failures

/-- What the call counts in a string: the commas it comes to, and a last token
that nothing follows. -/
def counted (s : Text) : ℕ :=
  (s.takeWhile listCharset).count ',' + if s.all listCharset ∧ s.getLastD ',' ≠ ',' then 1 else 0

def RestoresOnFailure (text : Cursor) : Prop :=
  ∀ left, ∃ out, carveCommaList text left = some out ∧ (out.ret = -1 → out.buf = text.buf)

variable (pre t : Text)

theorem string_run :
    ∃ run rest, t = run ++ rest ∧ (∀ c ∈ run, listCharset c = true) ∧
      listCharset (rest.headD nul) = false ∧
      (⟨pre ++ t, pre.length⟩ : Cursor).string.takeWhile listCharset = run ∧
      ((⟨pre ++ t, pre.length⟩ : Cursor).string.all listCharset = true ↔ rest.headD nul = nul) := by
  let text : Cursor := ⟨pre ++ t, pre.length⟩
  have whole : t.takeWhile listCharset ++ t.dropWhile listCharset = t := List.takeWhile_append_dropWhile
  have run : text.string.takeWhile listCharset = t.takeWhile listCharset := by
    rw [takeWhile_string text listCharset_nul]
    simp [text]
  have reached : (text.skip listCharset).deref = (t.dropWhile listCharset).headD nul := by
    have here := @getD_length (pre ++ t.takeWhile listCharset) (t.dropWhile listCharset) nul
    rw [List.append_assoc, whole, List.length_append] at here
    simpa [text, Cursor.skip, Cursor.deref] using here
  refine ⟨_, _, whole.symm, fun c hc => List.mem_takeWhile_imp hc, ?_, run, ?_⟩
  · cases h : t.dropWhile listCharset with
    | nil => exact listCharset_nul
    | cons c rest =>
      have head := List.head?_dropWhile_not listCharset t
      rw [h] at head
      simpa using head
  · rw [← reached, ← string_eq_nil_iff, skip_string text listCharset_nul, List.dropWhile_eq_nil_iff,
      List.all_eq_true]

theorem getLast?_comma (run : Text) : run.getLast? = some ',' ↔ run ≠ [] ∧ run.getLastD ',' = ',' := by
  cases run with
  | nil => simp
  | cons c run => simp [List.getLastD_eq_getLast?, List.getLast?_cons]

theorem cut_changed {run : Text} (comma : run.getLastD ',' = ',') (pre rest : Text) :
    pre ++ (cut run ++ rest) = pre ++ (run ++ rest) ↔ run = [] := by
  rw [List.append_cancel_left_eq, List.append_cancel_right_eq]
  refine ⟨fun same => by_contra fun some_ => comma_not_mem_cut run ?_, fun none_ => by rw [none_]; rfl⟩
  rw [same]
  exact List.mem_of_getLast? ((getLast?_comma run).mpr ⟨some_, comma⟩)

theorem natCast_ne_neg_one (n : ℕ) : (n : ℤ) ≠ -1 := by omega

/-- The text is restored unless the string is a list that breaks off after a
comma. -/
theorem carveCommaList_restores_iff :
    RestoresOnFailure ⟨pre ++ t, pre.length⟩ ↔
      let s := (⟨pre ++ t, pre.length⟩ : Cursor).string
      counted s < 2 ^ 31 ∧ ¬ (s.all listCharset = true ∧ s.getLast? = some ',') := by
  obtain ⟨run, rest, rfl, all, stop, begins, ends⟩ := string_run pre t
  generalize (⟨pre ++ (run ++ rest), pre.length⟩ : Cursor).string = s at begins ends
  have nulFree : nul ∉ run := fun mem => Bool.eq_false_iff.mp listCharset_nul (all nul mem)
  simp only [RestoresOnFailure, carveCommaList_eq all stop, counted, begins]
  by_cases few : run.count ',' < 2 ^ 31
  swap
  · refine iff_of_false (fun h => ?_) fun h => few (by omega)
    obtain ⟨out, run_eq, -⟩ := h none
    rw [if_neg few] at run_eq
    cases run_eq
  simp only [if_pos few]
  by_cases whole : rest.headD nul = nul
  · have same : s = run := by
      rw [← begins, eq_comm, List.takeWhile_eq_self_iff]
      exact List.all_eq_true.mp (ends.mpr whole)
    have list := ends.mpr whole
    rw [same] at list
    simp only [same, list, whole, ne_eq, not_true_eq_false, if_false, true_and, getLast?_comma]
    by_cases comma : run.getLastD ',' = ','
    · simp only [comma, not_true_eq_false, if_true, if_false, Nat.add_zero, few, and_true, true_and,
        not_not]
      rw [← cut_changed comma pre rest]
      constructor
      · intro h
        obtain ⟨out, answer, kept⟩ := h none
        obtain rfl := Option.some.inj answer
        exact kept rfl
      · intro same left
        exact ⟨_, rfl, fun _ => same⟩
    · simp only [comma, not_false_eq_true, if_true, if_false, and_false, and_true, countToken]
      constructor
      · intro h
        obtain ⟨out, answer, -⟩ := h none
        by_contra many
        rw [if_neg many] at answer
        cases answer
      · intro fits left
        rw [if_pos fits]
        exact ⟨_, rfl, fun negative => absurd negative (natCast_ne_neg_one _)⟩
  · have unfinished : s.all listCharset = false := Bool.eq_false_iff.mpr (mt ends.mp whole)
    simp only [ne_eq, whole, not_false_eq_true, if_true, unfinished, Bool.false_eq_true, false_and,
      if_false]
    refine iff_of_true (fun left => ?_) ⟨few, trivial⟩
    by_cases space : isspace (rest.headD nul) = true
    · rw [if_pos space]
      exact ⟨_, rfl, fun negative => absurd negative (natCast_ne_neg_one _)⟩
    · rw [if_neg space, restoreCommas_cut pre rest nulFree]
      exact ⟨_, rfl, fun _ => rfl⟩

/-- A list that breaks off after its first token. -/
theorem carveCommaList_breaks : ¬ RestoresOnFailure ⟨['a', ','], 0⟩ := by
  intro restores
  obtain ⟨out, answer, kept⟩ := restores none
  have broken : carveCommaList ⟨['a', ','], 0⟩ none = some ⟨-1, none, ['a', nul]⟩ := by decide
  obtain rfl := Option.some.inj (broken.symm.trans answer)
  exact absurd (kept rfl) (by decide)

end Failures

section Tokens

def Identifier (token : Text) : Prop := token ≠ [] ∧ ∀ c ∈ token, carveCharset c = true

theorem Identifier.comma_not_mem {token : Text} (ident : Identifier token) : ',' ∉ token :=
  fun mem => absurd (ident.2 _ mem) (by decide)

/-- Identifiers and the text they make when joined by commas. -/
inductive Joined : List Text → Text → Prop
  | last {token : Text} : Identifier token → Joined [token] token
  | more {token run : Text} {tokens : List Text} : Identifier token → Joined tokens run →
      Joined (token :: tokens) (token ++ ',' :: run)

variable {tokens : List Text} {run : Text}

theorem joined_intercalate (some_ : tokens ≠ []) (idents : ∀ token ∈ tokens, Identifier token) :
    Joined tokens ([','].intercalate tokens) := by
  induction tokens with
  | nil => exact absurd rfl some_
  | cons token tokens ih =>
    have first := idents token (by simp)
    cases tokens with
    | nil =>
      rw [List.intercalate_singleton]
      exact .last first
    | cons second tokens =>
      have rest := ih (by simp) fun t ht => idents t (by simp [ht])
      rw [List.intercalate_cons_cons, List.append_assoc, List.singleton_append]
      exact .more first rest

theorem Identifier.listCharset {token : Text} (ident : Identifier token) {c : Char}
    (mem : c ∈ token) : listCharset c = true := by
  simp [Carving.listCharset, ident.2 c mem]

theorem Joined.all (joined : Joined tokens run) : ∀ c ∈ run, listCharset c = true := by
  induction joined with
  | last ident => exact fun c hc => ident.listCharset hc
  | more ident _ ih =>
    intro c hc
    rcases List.mem_append.mp hc with h | h
    · exact ident.listCharset h
    · rcases List.mem_cons.mp h with rfl | h
      · decide
      · exact ih c h

theorem Joined.count (joined : Joined tokens run) : run.count ',' + 1 = tokens.length := by
  induction joined with
  | last ident => rw [List.count_eq_zero.mpr ident.comma_not_mem]; rfl
  | more ident _ ih =>
    rw [List.count_append, List.count_eq_zero.mpr ident.comma_not_mem, List.count_cons_self,
      List.length_cons, ← ih, Nat.zero_add]

theorem Joined.getLast (joined : Joined tokens run) : ∃ c, run.getLast? = some c ∧ c ≠ ',' := by
  induction joined with
  | @last token ident =>
    obtain ⟨c, last⟩ := Option.ne_none_iff_exists'.mp (mt List.getLast?_eq_none_iff.mp ident.1)
    refine ⟨c, last, ?_⟩
    rintro rfl
    exact ident.comma_not_mem (List.mem_of_getLast? last)
  | more _ _ ih =>
    obtain ⟨c, last, other⟩ := ih
    exact ⟨c, by simp [List.getLast?_append, List.getLast?_cons, last], other⟩

theorem Joined.cut (joined : Joined tokens run) : cut run ++ [nul] = tokens.flatMap (· ++ [nul]) := by
  induction joined with
  | last ident => simp [cut_of_not_mem ident.comma_not_mem]
  | more ident _ ih =>
    rw [cut_append, cut_of_not_mem ident.comma_not_mem, cut_cons, if_pos rfl, List.flatMap_cons, ← ih]
    simp

/-- The list is cut into its tokens, each with a NUL behind it; what is left of
the text starts at the NUL that ended the list, or behind the whitespace. -/
def Carves (pre : Text) (tokens : List Text) (c : Char) (more : Text) : Prop :=
  let run := [','].intercalate tokens
  ∀ left, carveCommaList ⟨pre ++ (run ++ c :: more), pre.length⟩ left =
    some ⟨tokens.length,
      left.map fun _ => some (pre.length + run.length + if c = nul then 0 else 1),
      pre ++ (tokens.flatMap (· ++ [nul]) ++ more)⟩

/-- The last token is counted where a NUL ends the list only. -/
theorem carveCommaList_tokens_iff (some_ : tokens ≠ []) (idents : ∀ token ∈ tokens, Identifier token)
    {c : Char} (ends : c = nul ∨ isspace c = true) (pre more : Text) :
    Carves pre tokens c more ↔ c = nul ∧ tokens.length < 2 ^ 31 := by
  have joined := joined_intercalate some_ idents
  simp only [Carves]
  generalize [','].intercalate tokens = run at joined
  obtain ⟨last, eq, other⟩ := joined.getLast
  have intoken : run.getLastD ',' ≠ ',' := by rwa [List.getLastD_eq_getLast?, eq]
  have cells : cut run ++ nul :: more = tokens.flatMap (· ++ [nul]) ++ more := by
    rw [← joined.cut]
    simp
  have place : pre.length + run.length = (pre ++ cut run).length := by simp
  rcases ends with rfl | space
  · have stop : listCharset ((nul :: more).headD nul) = false := listCharset_nul
    simp only [carveCommaList_eq joined.all stop, List.headD_cons, ne_eq, not_true_eq_false, if_false,
      if_true, intoken, countToken, joined.count, cells, true_and, Nat.add_zero]
    constructor
    · intro carves
      by_contra many
      have overflow := carves none
      rw [if_neg many, Option.map_none, ite_self] at overflow
      cases overflow
    · intro fits left
      have few : run.count ',' < 2 ^ 31 := by
        have := joined.count
        omega
      rw [if_pos few, if_pos fits]
      rfl
  · have stop : listCharset ((c :: more).headD nul) = false := listCharset_of_isspace space
    have other : c ≠ nul := by
      rintro rfl
      exact absurd space (by decide)
    simp only [carveCommaList_eq joined.all stop, List.headD_cons, ne_eq, other, not_false_eq_true,
      if_true, if_false, space, false_and, iff_false]
    intro carves
    have short := carves none
    split_ifs at short with few
    have same : (run.count ',' : ℤ) = tokens.length := congrArg Carved.ret (Option.some.inj short)
    have := joined.count
    omega

/-- The last of two tokens is not counted. -/
theorem carveCommaList_short : ¬ Carves [] [['a'], ['b']] ' ' ['c'] := by
  intro carves
  have short : carveCommaList ⟨['a', ',', 'b', ' ', 'c'], 0⟩ none =
      some ⟨1, none, ['a', nul, 'b', nul, 'c']⟩ := by decide
  exact absurd (short.symm.trans (carves none)) (by decide)

theorem carveCommaList_tokens_pair :
    (Carves [] [['a'], ['b']] nul [] ↔ nul = nul ∧ [['a'], ['b']].length < 2 ^ 31) := by
  refine carveCommaList_tokens_iff (by simp) (fun token mem => ?_) (.inl rfl) [] []
  rcases List.mem_cons.mp mem with rfl | mem
  · exact ⟨by simp, List.forall_mem_singleton.mpr (by decide)⟩
  · obtain rfl := List.mem_singleton.mp mem
    exact ⟨by simp, List.forall_mem_singleton.mpr (by decide)⟩

end Tokens

end Libdank.Carving
