import Libdank.Carving.Cursors

/-! The two readers of an IPv4 address, one that moves along a text and one that
returns a length. -/
namespace Libdank.Carving
open Parse Printing

def quadRun (s : Text) : Text := (parseWhitespace s).takeWhile quadChar

def quadEnd (s : Text) : ℕ := s.length - (parseWhitespace s).length + (quadRun s).length

/-- Both readers take a valid address, with the same value and as many characters,
and `carve_single_ip` refuses any other run. -/
def IpsAgree (inetPton : Text → Option UInt32) (text : Cursor) : Prop :=
  (∀ a, inetPton (quadRun text.string) = some a →
    carveSingleIp inetPton text = (some a, ⟨text.buf, text.at_ + quadEnd text.string⟩) ∧
      parseIpv4address inetPton text.string = some (quadEnd text.string, a)) ∧
  (inetPton (quadRun text.string) = none → (carveSingleIp inetPton text).1 = none)

variable {inetPton : Text → Option UInt32}

variable (empty : inetPton [] = none)
include empty

theorem carveSingleIp_rejects (text : Cursor) : (carveSingleIp inetPton text).1 = none := by
  rw [carveSingleIp]
  split_ifs with nonempty
  · rfl
  · have run : (((parseWhitespaces text).skip fun c => isdigit c || c = '.').at_ -
        (parseWhitespaces text).at_) = 0 := by omega
    rw [run, List.take_zero, empty]

theorem ipsAgree_iff (text : Cursor) :
    IpsAgree inetPton text ↔ inetPton (quadRun text.string) = none := by
  constructor
  · rintro ⟨accepts, -⟩
    by_contra valid
    obtain ⟨a, address⟩ := Option.ne_none_iff_exists'.mp valid
    have taken := congrArg Prod.fst (accepts a address).1
    rw [carveSingleIp_rejects empty] at taken
    cases taken
  · intro invalid
    refine ⟨fun a address => ?_, fun _ => carveSingleIp_rejects empty text⟩
    rw [invalid] at address
    cases address

omit empty

theorem dottedPton_nil : dottedPton [] = none := rfl

theorem ipsAgree_word : IpsAgree dottedPton ⟨['a'], 0⟩ ↔
    dottedPton (quadRun (⟨['a'], 0⟩ : Cursor).string) = none :=
  ipsAgree_iff dottedPton_nil _

/-- The address 1.2.3.4 is refused. -/
theorem carveSingleIp_refuses_quad : ¬ IpsAgree dottedPton ⟨dottedQuad 0x01020304, 0⟩ := by
  rintro ⟨accepts, -⟩
  have string : quadRun (⟨dottedQuad 0x01020304, 0⟩ : Cursor).string = dottedQuad 0x01020304 := by
    decide
  have valid : dottedPton (dottedQuad 0x01020304) = some (htonl 0x01020304) := by
    rw [← inetNtop_htonl, dottedPton_inetNtop]
  have taken := congrArg Prod.fst (accepts _ (string ▸ valid)).1
  rw [carveSingleIp_rejects dottedPton_nil] at taken
  cases taken

end Libdank.Carving
