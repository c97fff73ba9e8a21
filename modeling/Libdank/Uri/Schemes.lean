import Libdank.Uri.Ports
import Libdank.Uri.Refusals

/-! Which schemes are taken for the one asked for. -/
namespace Libdank.Uri
open Parse Requests

def SameScheme (s t : Text) : Prop := t.map tolower = s.map tolower

def BeginsWith (s text : Text) : Prop := s.map tolower <+: text.map tolower

instance (s t : Text) : Decidable (SameScheme s t) := inferInstanceAs (Decidable (_ = _))

/-- Either function succeeds only if the scheme `t` is the scheme `s` asked for. -/
def OnlyItsScheme (inetPton : Text → Bool) (s t text : Text) : Prop :=
  ∀ fresh h, (parseUri inetPton (some s) text h).1.1 = true ∨
    (extractUri inetPton fresh (some s) text h).1.1 ≠ none → SameScheme s t

theorem schemeMatches_iff (s text : Text) : schemeMatches (some s) text = true ↔ BeginsWith s text := by
  rw [schemeMatches, decide_eq_true_eq, BeginsWith, List.prefix_iff_eq_take, List.length_map, List.map_take]
  exact eq_comm

theorem SameScheme.begins {s t : Text} (same : SameScheme s t) (rest : Text) :
    BeginsWith s (t ++ rest) := by
  rw [BeginsWith, List.map_append, same]
  exact List.prefix_append _ _

theorem parseWhitespace_explicit {t white : Text} (explicit : ExplicitScheme t)
    (blank : ∀ c ∈ white, isspace c = true) (rest : Text) :
    parseWhitespace (white ++ (t ++ rest)) = t ++ rest := by
  rw [parseWhitespace, List.dropWhile_append_of_pos blank]
  exact parseWhitespace_solid (explicit.solid rest)

theorem partsOf_of_success {inetPton : Text → Bool} {fresh : Record} {scheme : Pointer Text} {line : Text}
    {h : Heap} (success : (parseUri inetPton scheme line h).1.1 = true ∨
      (extractUri inetPton fresh scheme line h).1.1 ≠ none) :
    partsOf inetPton scheme (parseWhitespace line) ≠ none := by
  have leaves (u : Pointer Record) (h : Heap)
      (ok : (extractUriInternal inetPton scheme line u h).1.1 = true) :
      partsOf inetPton scheme (parseWhitespace line) ≠ none := fun none_ => by
    have found := extractUriInternal_leaves inetPton scheme line u h ok
    rw [none_] at found
    cases found
  rcases success with parsed | extracted
  · exact leaves none h parsed
  · rw [extractUri, bind_apply] at extracted
    split_ifs at extracted with record
    · by_cases ok : (extractUriInternal inetPton scheme line (some fresh) (allocate recordBytes h).2).1.1 = true
      · exact leaves _ _ ok
      · exact absurd (by simp only [bind_apply, if_neg ok]; rfl) extracted
    · exact absurd rfl extracted

theorem success_of_partsOf {inetPton : Text → Bool} {scheme : Pointer Text} {line : Text}
    (found : partsOf inetPton scheme (parseWhitespace line) ≠ none) :
    (parseUri inetPton scheme line ⟨[], false⟩).1.1 = true := by
  have parsed := parseUri_parts inetPton scheme line ⟨[], false⟩ rfl
  obtain ⟨⟨rest, p⟩, some_⟩ := Option.ne_none_iff_exists'.mp found
  rw [some_] at parsed
  rw [parsed]

/-- Only a text of the scheme asked for is taken just when it is of that scheme, or when the
scheme is one the loop knows and either the text does not begin with what was asked for or
what follows is no URI. -/
theorem onlyItsScheme_iff (inetPton : Text → Bool) (s t white rest : Text) (explicit : ExplicitScheme t)
    (blank : ∀ c ∈ white, isspace c = true) :
    OnlyItsScheme inetPton s t (white ++ (t ++ ':' :: rest)) ↔
      SameScheme s t ∨ ((∀ c ∈ t, (isalnum c || decide (c = '-')) = true) ∧
        (¬ BeginsWith s (t ++ ':' :: rest) ∨ bodyOf inetPton rest = none)) := by
  have grammar := parseWhitespace_explicit explicit blank (':' :: rest)
  constructor
  · intro only
    by_cases same : SameScheme s t
    · exact Or.inl same
    · have refused : partsOf inetPton (some s) (t ++ ':' :: rest) = none := by
        by_contra found
        rw [← grammar] at found
        exact same (only zeroed ⟨[], false⟩ (Or.inl (success_of_partsOf found)))
      have name : SchemeName t := by
        by_contra other
        obtain ⟨left, text, found⟩ := bodyOf_explicit inetPton explicit (':' :: rest)
        rw [partsOf, schemeEnd_unnamed _ explicit other, Option.bind_some, found] at refused
        cases refused
      refine Or.inr ⟨name.2, or_iff_not_imp_left.mpr fun begins => ?_⟩
      rw [not_not, ← schemeMatches_iff] at begins
      rw [partsOf, schemeEnd_named _ name, if_pos begins] at refused
      simpa using refused
  · rintro (same | ⟨name, refuses⟩) fresh h success
    · exact same
    · have found := partsOf_of_success success
      rw [grammar, partsOf, schemeEnd_named _ ⟨explicit.1, name⟩] at found
      by_cases begins : schemeMatches (some s) (t ++ ':' :: rest) = true
      · have no_body := refuses.resolve_left (not_not.mpr ((schemeMatches_iff s _).mp begins))
        rw [if_pos begins, Option.bind_some, no_body] at found
        exact absurd rfl found
      · rw [if_neg begins] at found
        exact absurd rfl found

/-- "https://h" is taken for a URI of the scheme "http". -/
theorem longer_scheme_accepted :
    ¬ OnlyItsScheme (fun _ => true) "http".toList "https".toList "https://h".toList := by
  intro only
  have accepted :
      (parseUri (fun _ => true) (some "http".toList) "https://h".toList ⟨[], false⟩).1.1 = true := by
    decide +kernel
  exact absurd (only zeroed ⟨[], false⟩ (Or.inl accepted)) (by decide +kernel)

theorem onlyItsScheme_iff_http :
    OnlyItsScheme (fun _ => true) "http".toList "ftp".toList "ftp://h".toList ↔
      SameScheme "http".toList "ftp".toList ∨
        ((∀ c ∈ "ftp".toList, (isalnum c || decide (c = '-')) = true) ∧
          (¬ BeginsWith "http".toList "ftp://h".toList ∨ bodyOf (fun _ => true) "//h".toList = none)) :=
  onlyItsScheme_iff (fun _ => true) "http".toList "ftp".toList [] "//h".toList
    ⟨by simp, List.all_eq_true.mp (by decide)⟩ (by simp)

end Libdank.Uri
