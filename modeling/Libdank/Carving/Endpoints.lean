import Libdank.Carving.Cursors

/-! An endpoint, an address and perhaps a port, carved off a text. -/
namespace Libdank.Carving
open Parse Printing

section Numbers

variable {digits rest : Text}

theorem scanUint_digits (some_ : digits ≠ []) (all : ∀ c ∈ digits, isdigit c = true)
    (stop : ∀ c ∈ rest.head?, isdigit c = false) (fits : decimal digits < 2 ^ 64) :
    scanUint (digits ++ rest) = some (decimal digits % 2 ^ 32) := by
  obtain ⟨c, digits', rfl⟩ := List.exists_cons_of_ne_nil some_
  have first : isdigit c = true := all c (.head _)
  have here : parseWhitespace (c :: digits' ++ rest) = c :: digits' ++ rest :=
    List.dropWhile_cons_of_neg (by simp [Lexers.isspace_of_isdigit first])
  have run : (c :: digits' ++ rest).takeWhile isdigit = c :: digits' := takeWhile_append_stop all stop
  have minus : c ≠ '-' := by
    rintro rfl
    cases first
  have plus : c ≠ '+' := by
    rintro rfl
    cases first
  simp only [scanUint, here]
  split
  · rename_i shape
    exact absurd (List.cons.inj shape).1 minus
  · rename_i shape
    exact absurd (List.cons.inj shape).1 plus
  · simp only [run]
    rw [if_neg (by simp), if_neg (not_le.mpr fits), if_neg (by simp)]

theorem toDigits_port_length (p : UInt16) :
    1 ≤ (Nat.toDigits 10 p.toNat).length ∧ (Nat.toDigits 10 p.toNat).length ≤ 5 := by
  refine ⟨Nat.length_toDigits_pos, (Nat.length_toDigits_le_iff (by decide) (by decide)).mpr ?_⟩
  have small := p.toNat_lt
  omega

end Numbers

section Ports

variable {pre rest : Text}

theorem string_at_append {run : Text} (live : nul ∉ run) :
    (⟨pre ++ (run ++ rest), pre.length⟩ : Cursor).string = run ++ rest.takeWhile (· ≠ nul) := by
  rw [Cursor.string, List.drop_left, List.takeWhile_append_of_pos]
  intro c mem
  exact decide_eq_true fun same => live (same ▸ mem)

theorem stop_before_nul {p : Char → Bool} (stop : ∀ c ∈ rest.head?, p c = false) :
    ∀ c ∈ (rest.takeWhile (· ≠ nul)).head?, p c = false := by
  intro c mem
  rw [List.head?_takeWhile] at mem
  exact stop c (Option.mem_filter_iff.mp mem).1

theorem carveSinglePort_digits (p : UInt16) (stop : ∀ c ∈ rest.head?, isdigit c = false) :
    carveSinglePort ⟨pre ++ (Nat.toDigits 10 p.toNat ++ rest), pre.length⟩ =
      (some p, ⟨pre ++ (Nat.toDigits 10 p.toNat ++ rest),
        pre.length + (Nat.toDigits 10 p.toNat).length⟩) := by
  obtain ⟨low, high⟩ := toDigits_port_length p
  have small := p.toNat_lt
  have value : decimal (Nat.toDigits 10 p.toNat) = p.toNat := by
    rw [decimal_eq, Nat.ofDigitChars_ten_toDigits]
  have all : ∀ c ∈ Nat.toDigits 10 p.toNat, isdigit c = true := fun c => isdigit_of_mem_toDigits
  generalize Nat.toDigits 10 p.toNat = digits at *
  have some_ : digits ≠ [] := List.ne_nil_of_length_pos low
  have live : nul ∉ digits := fun mem => absurd (all nul mem) (by decide)
  have first : ∀ c ∈ (digits ++ rest).head?, isspace c = false := by
    intro c mem
    rw [List.head?_append_of_ne_nil _ some_] at mem
    exact Lexers.isspace_of_isdigit (all c (List.mem_of_mem_head? mem))
  have spaces := @skip_at pre (digits ++ rest) isspace [] (by simp) first
  have run := @skip_at pre rest isdigit digits all stop
  have scanned := scanUint_digits some_ all (stop_before_nul stop) (by omega)
  rw [List.nil_append, List.length_nil, Nat.add_zero] at spaces
  rw [carveSinglePort]
  simp only [spaces, run]
  rw [if_neg (by omega), if_neg (by omega), string_at_append live, scanned, value,
    Nat.mod_eq_of_lt (by omega)]
  simp only
  rw [if_neg (by omega), UInt16.ofNat_toNat]

theorem carveSinglePort_refuses {text after : Cursor} (refused : carveSinglePort text = (none, after)) :
    after = text := by
  unfold carveSinglePort at refused
  dsimp only at refused
  split_ifs at refused
  · exact (Prod.mk.inj refused).2.symm
  · exact (Prod.mk.inj refused).2.symm
  · split at refused
    · exact (Prod.mk.inj refused).2.symm
    · split_ifs at refused
      · exact (Prod.mk.inj refused).2.symm
      · cases (Prod.mk.inj refused).1

end Ports

section Endpoints

variable {inetPton : Text → Option UInt32}

section Addresses

variable (inverse : ∀ s, inetPton (inetNtop s) = some s) (pre : Text) (a : UInt32) {rest : Text}
include inverse

theorem parseIpv4address_at (stop : ∀ c ∈ rest.head?, quadChar c = false) :
    parseIpv4address inetPton (⟨pre ++ (dottedQuad a ++ rest), pre.length⟩ : Cursor).string =
      some ((dottedQuad a).length, htonl a) := by
  have live : nul ∉ dottedQuad a := fun mem => absurd (dottedQuad_chars a nul mem) (by decide)
  rw [string_at_append live]
  exact parseIpv4address_dottedQuad inverse a (stop_before_nul stop)

omit inverse in
theorem deref_behind (run : Text) :
    (⟨pre ++ (run ++ rest), pre.length + run.length⟩ : Cursor).deref = rest.headD nul := by
  rw [← List.append_assoc, ← List.length_append]
  exact getD_length nul

theorem carveIpv4endpoint_port {p : UInt16} {after : Cursor} (d : ℕ)
    (port : carveSinglePort ⟨pre ++ (dottedQuad a ++ ':' :: rest),
      pre.length + (dottedQuad a).length + 1⟩ = (some p, after)) :
    carveIpv4endpoint inetPton ⟨pre ++ (dottedQuad a ++ ':' :: rest), pre.length⟩ d =
      (true, ⟨afInet, htons p, htonl a⟩, after) := by
  have colon : ∀ c ∈ (':' :: rest).head?, quadChar c = false := by
    simp [quadChar, isdigit]
  simp only [carveIpv4endpoint, parseIpv4address_at inverse pre a colon, deref_behind, Cursor.next, port,
    List.headD_cons, if_true]

theorem carveIpv4endpoint_alone (d : ℕ) (stop : ∀ c ∈ rest.head?, c ≠ ':' ∧ quadChar c = false) :
    carveIpv4endpoint inetPton ⟨pre ++ (dottedQuad a ++ rest), pre.length⟩ d =
      (true, ⟨afInet, htons (UInt16.ofNat d), htonl a⟩,
        ⟨pre ++ (dottedQuad a ++ rest), pre.length + (dottedQuad a).length⟩) := by
  have other : rest.headD nul ≠ ':' := by
    cases rest with
    | nil => decide
    | cons c rest => exact (stop c rfl).1
  simp only [carveIpv4endpoint, parseIpv4address_at inverse pre a fun c mem => (stop c mem).2,
    deref_behind, if_neg other]

end Addresses

theorem carveIpv4endpoint_refuses {text : Cursor} {d : ℕ}
    (refused : (carveIpv4endpoint inetPton text d).1 = false) :
    (carveIpv4endpoint inetPton text d).2.2 = text := by
  unfold carveIpv4endpoint at refused ⊢
  cases parsed : parseIpv4address inetPton text.string with
  | none => rfl
  | some found =>
    obtain ⟨ret, s⟩ := found
    simp only [parsed] at refused ⊢
    split_ifs at refused ⊢
    cases port : carveSinglePort (Cursor.next { text with at_ := text.at_ + ret }) with
    | mk p after =>
      cases p with
      | some p => simp [port] at refused
      | none =>
        rw [carveSinglePort_refuses port]
        rfl

/-- An address with a port, an address alone, and a text that is refused. -/
theorem carveIpv4endpoint_exact (inetPton : Text → Option UInt32)
    (inverse : ∀ s, inetPton (inetNtop s) = some s) :
    (∀ pre a (p : UInt16) rest (d : UInt16), (∀ c ∈ rest.head?, isdigit c = false) →
      carveIpv4endpoint inetPton
          ⟨pre ++ (dottedQuad a ++ ':' :: (Nat.toDigits 10 p.toNat ++ rest)), pre.length⟩ d.toNat =
        (true, ⟨afInet, htons p, htonl a⟩,
          ⟨pre ++ (dottedQuad a ++ ':' :: (Nat.toDigits 10 p.toNat ++ rest)),
            pre.length + (dottedQuad a ++ ':' :: Nat.toDigits 10 p.toNat).length⟩)) ∧
    (∀ pre a rest (d : UInt16), (∀ c ∈ rest.head?, c ≠ ':' ∧ quadChar c = false) →
      carveIpv4endpoint inetPton ⟨pre ++ (dottedQuad a ++ rest), pre.length⟩ d.toNat =
        (true, ⟨afInet, htons d, htonl a⟩,
          ⟨pre ++ (dottedQuad a ++ rest), pre.length + (dottedQuad a).length⟩)) ∧
    ∀ text (d : UInt16), (carveIpv4endpoint inetPton text d.toNat).1 = false →
      (carveIpv4endpoint inetPton text d.toNat).2.2 = text := by
  refine ⟨fun pre a p rest d stop => ?_, fun pre a rest d stop => ?_,
    fun text d => carveIpv4endpoint_refuses⟩
  · have port := @carveSinglePort_digits (pre ++ dottedQuad a ++ [':']) rest p stop
    simp only [List.append_assoc, List.singleton_append, List.length_append, List.length_singleton,
      ← Nat.add_assoc] at port
    rw [carveIpv4endpoint_port inverse pre a d.toNat port, List.length_append, List.length_cons]
    simp only [Nat.add_assoc, Nat.add_comm 1]
  · rw [carveIpv4endpoint_alone inverse pre a d.toNat stop, UInt16.ofNat_toNat]

/-- "1.2.3.4:80 ", "1.2.3.4 " and "x". -/
theorem carveIpv4endpoint_exact_loopback :
    carveIpv4endpoint dottedPton ⟨dottedQuad 0x01020304 ++ ':' :: (Nat.toDigits 10 80 ++ [' ']), 0⟩ 7 =
        (true, ⟨afInet, htons 80, htonl 0x01020304⟩,
          ⟨dottedQuad 0x01020304 ++ ':' :: (Nat.toDigits 10 80 ++ [' ']),
            0 + (dottedQuad 0x01020304 ++ ':' :: Nat.toDigits 10 80).length⟩) ∧
      carveIpv4endpoint dottedPton ⟨dottedQuad 0x01020304 ++ [' '], 0⟩ 7 =
        (true, ⟨afInet, htons 7, htonl 0x01020304⟩,
          ⟨dottedQuad 0x01020304 ++ [' '], 0 + (dottedQuad 0x01020304).length⟩) ∧
      (carveIpv4endpoint dottedPton ⟨['x'], 0⟩ 7).2.2 = ⟨['x'], 0⟩ :=
  have exact_ := carveIpv4endpoint_exact dottedPton dottedPton_inetNtop
  ⟨exact_.1 [] 0x01020304 80 [' '] 7 (by rintro c ⟨⟩; rfl),
    exact_.2.1 [] 0x01020304 [' '] 7 (by rintro c ⟨⟩; decide),
    exact_.2.2 ⟨['x'], 0⟩ 7 (by decide +kernel)⟩

end Endpoints

end Libdank.Carving
