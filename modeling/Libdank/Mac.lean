import Libdank.Hex

/-! Hardware addresses and their texts, after `utils/mac.c`. What a text is parsed
into is the list of the bytes stored. -/
namespace Libdank.Mac
open Parse Printing Hex

def ethAlen : ℕ := 6

def ethAddrstrlen : ℕ := ethAlen * 2 + ethAlen

abbrev Address := Vector UInt8 6

inductive MacFormat
  | std
  | hp
  | cisco
  | other (type : ℕ)
deriving DecidableEq

def mactoascii (mac : Address) (sep : Option Separator) (type : MacFormat) : Option Text :=
  let byte (i : Fin 6) := twoDigits (mac.get i)
  match sep with
  | none => some (byte 0 ++ byte 1 ++ byte 2 ++ byte 3 ++ byte 4 ++ byte 5)
  | some sep =>
    match type with
    | .cisco => some (byte 0 ++ byte 1 ++ [sep.char] ++ byte 2 ++ byte 3 ++ [sep.char] ++
        byte 4 ++ byte 5)
    | .hp => some (byte 0 ++ byte 1 ++ byte 2 ++ [sep.char] ++ byte 3 ++ byte 4 ++ byte 5)
    | .std => some (byte 0 ++ [sep.char] ++ byte 1 ++ [sep.char] ++ byte 2 ++ [sep.char] ++
        byte 3 ++ [sep.char] ++ byte 4 ++ [sep.char] ++ byte 5)
    | .other _ => none

/-- `past` is what lies behind the NUL, which the look at the character after the
address may reach. The pointer `hextoascii` returns is the condition. -/
def asciitomac (past : ℕ → Char) (buf : Text) (sep : Option Separator) : ℤ × List UInt8 :=
  let ret := (buf.takeWhile isspace).length
  let buf := parseWhitespace buf
  let (decoded, mac) := (hextoascii buf sep ethAlen []).1
  if decoded ≠ none then (-1, mac)
  else
    let i := ethAddrstrlen - 1
    let c := if i ≤ buf.length then buf.getD i nul else past (i - buf.length - 1)
    if c ≠ nul ∧ c ≠ ' ' ∧ c ≠ '\t' ∧ c ≠ ',' then (-1, mac)
    else (((ret + ethAddrstrlen : ℕ) : ℤ), mac)

theorem mactoascii_std (mac : Address) (sep : Separator) :
    mactoascii mac (some sep) .std = some (hexText (some sep) mac.toList) := by
  obtain ⟨⟨bytes⟩, size⟩ := mac
  match bytes, size with
  | [a, b, c, d, e, f], _ =>
    simp only [mactoascii, twoDigits_eq, List.append_assoc]
    rfl

theorem parseWhitespace_hexText {ws : Text} (white : ∀ c ∈ ws, isspace c) (mac : Address)
    (sep : Separator) (rest : Text) :
    parseWhitespace (ws ++ (hexText (some sep) mac.toList ++ rest)) =
      hexText (some sep) mac.toList ++ rest := by
  rw [parseWhitespace, List.dropWhile_append_of_pos white]
  obtain ⟨⟨bytes⟩, size⟩ := mac
  match bytes, size with
  | [a, b, c, d, e, f], _ =>
    have digit : ∀ n : Fin 16, ¬ isspace (Nat.digitChar n).toUpper := by decide
    have first := digit ⟨a.toNat / 16, by have := a.toNat_lt; omega⟩
    simp only [Vector.toList, hexText, pairText_eq, List.cons_append]
    rw [List.dropWhile_cons_of_neg first]

theorem pairs_append {sep : Option Separator} {bs : List UInt8} {text : Text}
    (pairs : Pairs sep bs text) (rest : Text) : Pairs sep bs (text ++ rest) := by
  induction pairs with
  | nil text => exact .nil _
  | last text first second => exact .last _ first second
  | cons first second others ih =>
    rw [List.cons_append, List.cons_append, List.append_assoc]
    exact .cons first second ih

def ReadsBack (past : ℕ → Char) (ws text rest : Text) (sep : Separator) (mac : Address) : Prop :=
  asciitomac past (ws ++ (text ++ rest)) (some sep) = (((ws.length + text.length : ℕ) : ℤ), mac.toList)

/-- No address is read back: the call fails, though the bytes are stored. -/
theorem asciitomac_rejects {ws : Text} (white : ∀ c ∈ ws, isspace c) (mac : Address) (sep : Separator)
    (past : ℕ → Char) (rest : Text) :
    ∃ text, mactoascii mac (some sep) .std = some text ∧
      asciitomac past (ws ++ (text ++ rest)) (some sep) = (-1, mac.toList) ∧
      ¬ ReadsBack past ws text rest sep mac := by
  have decoded : (hextoascii (hexText (some sep) mac.toList ++ rest) (some sep) ethAlen []).1 =
      (some ethAlen, mac.toList) :=
    (hextoascii_exact _ _ _).bytes mac.toList mac.length_toList (pairs_append (pairs_hexText _ _) rest)
  have failed : asciitomac past (ws ++ (hexText (some sep) mac.toList ++ rest)) (some sep) =
      (-1, mac.toList) := by
    rw [asciitomac, parseWhitespace_hexText white]
    simp only [decoded]
    rfl
  refine ⟨_, mactoascii_std mac sep, failed, fun back => ?_⟩
  rw [ReadsBack, failed, Prod.mk.injEq] at back
  omega

def colon : Separator := ⟨':', by decide⟩

theorem asciitomac_rejects_spaced :
    ∃ text, mactoascii #v[0xDE, 0xAD, 0xBE, 0xEF, 0xF0, 0x0F] (some colon) .std = some text ∧
      asciitomac (fun _ => nul) ([' '] ++ (text ++ [','])) (some colon) =
        (-1, [0xDE, 0xAD, 0xBE, 0xEF, 0xF0, 0x0F]) ∧
      ¬ ReadsBack (fun _ => nul) [' '] text [','] colon #v[0xDE, 0xAD, 0xBE, 0xEF, 0xF0, 0x0F] :=
  asciitomac_rejects (List.forall_mem_singleton.mpr (by decide))
    #v[0xDE, 0xAD, 0xBE, 0xEF, 0xF0, 0x0F] colon (fun _ => nul) [',']

theorem deadbeef_rejected :
    mactoascii #v[0xDE, 0xAD, 0xBE, 0xEF, 0xF0, 0x0F] (some colon) .std =
        some "DE:AD:BE:EF:F0:0F".toList ∧
      ¬ ReadsBack (fun _ => nul) [] "DE:AD:BE:EF:F0:0F".toList [] colon
        #v[0xDE, 0xAD, 0xBE, 0xEF, 0xF0, 0x0F] := by
  unfold ReadsBack
  decide +kernel

end Libdank.Mac
