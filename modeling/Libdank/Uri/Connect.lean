import Libdank.Uri.PortDigits

/-! The record of a "CONNECT" request. The parser of the authority writes its userinfo, its
host and its port only, and what the allocator returned is not zeroed. -/
namespace Libdank.Uri
open Parse Requests

/-- What memory may hold of a record before anything is stored: pointers to nothing that
the call has allocated. -/
structure Leftover (u : Record) : Prop where
  scheme : ∀ s ∈ u.scheme, s.malloced = false
  host : ∀ s ∈ u.host, s.malloced = false
  userinfo : ∀ s ∈ u.userinfo, s.malloced = false
  path : ∀ s ∈ u.path, s.malloced = false
  query : ∀ s ∈ u.query, s.malloced = false
  fragment : ∀ s ∈ u.fragment, s.malloced = false
  opaquePart : ∀ s ∈ u.opaquePart, s.malloced = false

structure OnlyAuthority (u : Record) : Prop where
  scheme : u.scheme = none
  path : u.path = none
  query : u.query = none
  fragment : u.fragment = none
  opaquePart : u.opaquePart = none

/-- Whatever the memory of the record held, the call comes to the same, frees only what it
has allocated, and stores nothing but the authority, the port 0 if there is none. -/
def IndependentOfMemory (inetPton : Text → Bool) (line : Text) (outcomes : List Bool) : Prop :=
  ∀ fresh, Leftover fresh →
    extractConnectUri inetPton fresh line ⟨outcomes, false⟩ =
      extractConnectUri inetPton zeroed line ⟨outcomes, false⟩ ∧
    (extractConnectUri inetPton fresh line ⟨outcomes, false⟩).2.wild = false ∧
    ∀ u, (extractConnectUri inetPton fresh line ⟨outcomes, false⟩).1.1 = some u →
      OnlyAuthority u ∧ ∀ rest, hostRest inetPton line = some rest → head rest ≠ ':' → u.port = 0

def Own (s : Pointer OwnString) : Prop := s.all (·.malloced) = true

theorem strndup_tame (s : Text) : Ensures Tame (strndup s) (fun p h => Own p ∧ Tame h) :=
  ensures_bind (allocate_tame _) fun _ =>
    ensures_ite (fun _ => ensures_pure fun _ tame => ⟨rfl, tame⟩)
      fun _ => ensures_pure fun _ tame => ⟨rfl, tame⟩

theorem free_tame {s : Pointer OwnString} (own_ : Own s) : Ensures Tame (free s) (fun _ => Tame) := by
  intro h tame
  change (h.wild || !(s.all (·.malloced))) = false
  rw [own_, show h.wild = false from tame]
  rfl

/-- On the way of the parser: the strings of the authority are the call's own, and the rest
is as it was in `fresh`. -/
structure Filling (fresh u : Record) : Prop where
  scheme : u.scheme = fresh.scheme
  path : u.path = fresh.path
  query : u.query = fresh.query
  fragment : u.fragment = fresh.fragment
  opaquePart : u.opaquePart = fresh.opaquePart
  port : u.port = fresh.port
  host : Own u.host
  userinfo : Own u.userinfo

variable {fresh : Record}

def Fills (fresh : Record) (u : Pointer Record) (h : Heap) : Prop :=
  (∃ r, u = some r ∧ Filling fresh r) ∧ Tame h

theorem keep_fills {set : Record → Pointer OwnString → Record}
    (fills : ∀ r p, Filling fresh r → Own p → Filling fresh (set r p)) (start stop : Text)
    (u : Pointer Record) :
    Ensures (Fills fresh u) (keep set start stop u) (fun q h => Fills fresh q.2.2 h) := by
  rintro h ⟨⟨r, rfl, filling⟩, tame⟩
  obtain ⟨own_, tame'⟩ := strndup_tame (upto start stop) h tame
  exact ⟨⟨_, rfl, fills r _ filling own_⟩, tame'⟩

theorem parseUserinfo_fills (text : Text) (u : Pointer Record) :
    Ensures (Fills fresh u) (parseUserinfo text u) (fun q h => Fills fresh q.2.2 h) := by
  have stays (ok : Bool) (found : Text × Text) (u : Pointer Record) :
      Ensures (Fills fresh u) (pure (ok, found, u)) (fun q h => Fills fresh q.2.2 h) :=
    ensures_pure fun _ fills => fills
  unfold parseUserinfo
  refine ensures_ite (fun _ => stays _ _ _) fun _ => ensures_ite (fun _ => ?_) fun _ => stays _ _ _
  refine ensures_ite (fun _ => stays _ _ _) fun _ => ensures_andThen
    (keep_fills (fun r p filling own_ => ?_) text (skipAll authChar text) u)
    (fun _ _ => stays _ _ _) fun _ _ => stays _ _ _
  exact { filling with userinfo := own_ }

theorem parseHost_fills (inetPton : Text → Bool) (host line : Text) (u : Pointer Record) :
    Ensures (Fills fresh u) (parseHost inetPton host line u) (fun q h => Fills fresh q.2.2 h) := by
  unfold parseHost
  refine ensures_ite (fun _ => keep_fills (fun r p filling own_ => ?_) _ _ u)
    fun _ => ensures_pure fun _ fills => fills
  exact { filling with host := own_ }

theorem parseToPort_fills (inetPton : Text → Bool) (text : Text) (u : Pointer Record) :
    Ensures (Fills fresh u) (parseToPort inetPton text u) (fun q h => Fills fresh q.2.2 h) :=
  ensures_andThen (parseUserinfo_fills text u) (fun found u => parseHost_fills inetPton found.1 found.2 u)
    fun _ _ => ensures_pure fun _ fills => fills

def Filled (inetPton : Text → Bool) (fresh : Record) (text : Text) (q : Ended Text) (h : Heap) : Prop :=
  (∃ r port, q.2.2 = some r ∧ Filling { fresh with port := port } r ∧
    (q.1 = true → ∀ rest, hostRest inetPton text = some rest → head rest ≠ ':' → port = fresh.port)) ∧
  Tame h

theorem leaveAuthority_filled (inetPton : Text → Bool) (bare : fresh.path = none) (text line : Text)
    (u : Pointer Record) :
    Ensures (Fills fresh u) (leaveAuthority line u) (Filled inetPton fresh text) := by
  rintro h ⟨⟨r, rfl, filling⟩, tame⟩
  have path : Own r.path := by rw [filling.path, bare]; rfl
  have freed := free_tame path _ (free_tame filling.host _ (free_tame filling.userinfo h tame))
  exact ⟨⟨_, 0, rfl, ⟨filling.scheme, bare.symm, filling.query, filling.fragment, filling.opaquePart,
    rfl, rfl, rfl⟩, Bool.false_ne_true.elim⟩, freed⟩

theorem parseUriPort_filled (inetPton : Text → Bool) (bare : fresh.path = none) {text line : Text}
    (reached : hostRest inetPton text = some line) (u : Pointer Record) :
    Ensures (Fills fresh u)
      (andThen (parseUriPort line u) (fun line u => pure (true, line, u)) leaveAuthority)
      (Filled inetPton fresh text) := by
  intro h fills
  rw [andThen, bind_apply, parseUriPort]
  by_cases colon : head line = ':'
  · rw [if_pos colon]
    cases Lexers.lexU16 line.tail with
    | error _ => exact leaveAuthority_filled inetPton bare text line.tail u h fills
    | ok lexed =>
      obtain ⟨⟨r, rfl, filling⟩, tame⟩ := fills
      refine ⟨⟨_, lexed.1, rfl, { filling with port := rfl }, fun _ rest found none_ => ?_⟩, tame⟩
      rw [reached] at found
      exact absurd (Option.some.inj found ▸ colon) none_
  · rw [if_neg colon]
    obtain ⟨⟨r, rfl, filling⟩, tame⟩ := fills
    exact ⟨⟨r, fresh.port, rfl, filling, fun _ _ _ _ => rfl⟩, tame⟩

theorem parseUriAuthority_filled (inetPton : Text → Bool) (bare : fresh.path = none) (text : Text)
    (u : Pointer Record) :
    Ensures (Fills fresh u) (parseUriAuthority inetPton text u) (Filled inetPton fresh text) := by
  intro h fills
  have toPort : Ensures (· = h) (parseToPort inetPton text u) (fun q h => Fills fresh q.2.2 h ∧
      (q.1 = true → hostRest inetPton text = some q.2.1)) := by
    rintro _ rfl
    exact ⟨parseToPort_fills inetPton text u _ fills, parseToPort_leaves inetPton text u _⟩
  rw [parseUriAuthority_steps]
  exact ensures_andThen toPort
    (fun line u h' left => parseUriPort_filled inetPton bare (left.2 rfl) u h' left.1)
    (fun line u h' left => leaveAuthority_filled inetPton bare text line u h' left.1) h rfl

def schemeOnly (s : Pointer OwnString) : Record := { zeroed with scheme := s }

theorem resetUri_schemeOnly {s : Pointer OwnString} {port : ℕ} {u : Record}
    (filling : Filling { schemeOnly s with port := port } u) {h : Heap} (tame : Tame h) :
    (resetUri (some u) h).2.wild = !s.all (·.malloced) := by
  have freed : (resetUri (some u) h).2.wild = (((((((h.wild || !u.scheme.all (·.malloced)) ||
      !u.host.all (·.malloced)) || !u.userinfo.all (·.malloced)) || !u.path.all (·.malloced)) ||
      !u.query.all (·.malloced)) || !u.fragment.all (·.malloced)) || !u.opaquePart.all (·.malloced)) := rfl
  rw [freed, show h.wild = false from tame, filling.scheme,
    show u.host.all (·.malloced) = true from filling.host,
    show u.userinfo.all (·.malloced) = true from filling.userinfo, filling.path, filling.query,
    filling.fragment, filling.opaquePart]
  simp [schemeOnly, zeroed]

theorem extractConnectUri_schemeOnly (inetPton : Text → Bool) (s : Pointer OwnString) (line : Text) :
    Ensures (fun h => (allocate recordBytes h).1 = true ∧ Tame h)
      (extractConnectUri inetPton (schemeOnly s) line) (fun q h =>
        (q.1 = none ∧ h.wild = !s.all (·.malloced)) ∨
        ∃ r port, q.1 = some r ∧ Filling { schemeOnly s with port := port } r ∧
          (∀ rest, hostRest inetPton line = some rest → head rest ≠ ':' → port = 0) ∧ Tame h) := by
  rintro h ⟨served, tame⟩
  have fills : Fills (schemeOnly s) (some (schemeOnly s)) (allocate recordBytes h).2 :=
    ⟨⟨_, rfl, ⟨rfl, rfl, rfl, rfl, rfl, rfl, rfl, rfl⟩⟩, allocate_tame recordBytes h tame⟩
  have filled := parseUriAuthority_filled inetPton rfl line (some (schemeOnly s)) _ fills
  rw [extractConnectUri, bind_apply, if_pos served, bind_apply]
  generalize parseUriAuthority inetPton line (some (schemeOnly s)) (allocate recordBytes h).2 = q at filled
  obtain ⟨⟨ok, rest, u⟩, h'⟩ := q
  obtain ⟨⟨r, port, found, filling, bare⟩, tame'⟩ := filled
  obtain rfl : u = some r := found
  cases ok with
  | true => exact Or.inr ⟨r, port, rfl, filling, bare rfl, tame'⟩
  | false => exact Or.inl ⟨rfl, resetUri_schemeOnly filling tame'⟩

/-- In zeroed memory, which the comment on `Malloc` promises, the authority alone is stored
and nothing but the call's own strings is freed. -/
theorem extractConnectUri_zeroed (inetPton : Text → Bool) (line : Text) (outcomes : List Bool) :
    (extractConnectUri inetPton zeroed line ⟨outcomes, false⟩).2.wild = false ∧
    ∀ u, (extractConnectUri inetPton zeroed line ⟨outcomes, false⟩).1.1 = some u →
      OnlyAuthority u ∧ ∀ rest, hostRest inetPton line = some rest → head rest ≠ ':' → u.port = 0 := by
  by_cases served : (allocate recordBytes ⟨outcomes, false⟩).1 = true
  · rcases extractConnectUri_schemeOnly inetPton none line _ ⟨served, rfl⟩ with
      ⟨refused, freed⟩ | ⟨r, port, found, filling, bare, tame⟩
    · exact ⟨freed, fun u some_ => by cases refused.symm.trans some_⟩
    · refine ⟨tame, fun u some_ => ?_⟩
      obtain rfl := Option.some.inj (found.symm.trans some_)
      exact ⟨⟨filling.scheme, filling.path, filling.query, filling.fragment, filling.opaquePart⟩,
        fun rest reached none_ => filling.port.trans (bare rest reached none_)⟩
  · rw [extractConnectUri, bind_apply, if_neg served]
    exact ⟨allocate_tame recordBytes ⟨outcomes, false⟩ rfl, fun u some_ => by cases some_⟩

/-- The memory the record lies in does not matter just when there is none to be had. -/
theorem independentOfMemory_iff (inetPton : Text → Bool) (line : Text) (outcomes : List Bool) :
    IndependentOfMemory inetPton line outcomes ↔ outcomes.head? = some false := by
  have record : (allocate recordBytes ⟨outcomes, false⟩).1 = false ↔ outcomes.head? = some false := by
    cases outcomes with
    | nil => simp [allocate, recordBytes, request]
    | cons served outcomes => simp [allocate, recordBytes, request]
  rw [← record]
  constructor
  · intro independent
    by_contra served
    have garbage : Leftover (schemeOnly (some ⟨[], false⟩)) := by
      constructor <;> simp [schemeOnly, zeroed]
    obtain ⟨-, tame, clean⟩ := independent _ garbage
    rcases extractConnectUri_schemeOnly inetPton (some ⟨[], false⟩) line _
        ⟨Bool.eq_true_of_not_eq_false served, rfl⟩ with ⟨-, freed⟩ | ⟨r, port, found, filling, -⟩
    · rw [tame] at freed
      cases freed
    · have kept := (clean r found).1.scheme
      rw [filling.scheme] at kept
      cases kept
  · intro refused fresh _
    have same (fresh : Record) : extractConnectUri inetPton fresh line ⟨outcomes, false⟩ =
        ((none, line), (allocate recordBytes ⟨outcomes, false⟩).2) := by
      rw [extractConnectUri, bind_apply, if_neg (by rw [refused]; exact Bool.false_ne_true)]
      rfl
    refine ⟨by rw [same, same], ?_, fun u some_ => ?_⟩
    · rw [same]
      exact allocate_tame recordBytes ⟨outcomes, false⟩ rfl
    · rw [same] at some_
      cases some_

/-- "h": the record has the scheme the memory happened to hold. -/
theorem leftover_scheme_returned : ¬ IndependentOfMemory (fun _ => true) ['h'] [] := by
  intro independent
  have garbage : Leftover (schemeOnly (some ⟨[], false⟩)) := by
    constructor <;> simp [schemeOnly, zeroed]
  have found : (extractConnectUri (fun _ => true) (schemeOnly (some ⟨[], false⟩)) ['h'] ⟨[], false⟩).1.1 =
      some { zeroed with scheme := some ⟨[], false⟩, host := own ['h'] } := by
    decide +kernel
  exact absurd ((independent _ garbage).2.2 _ found).1.scheme (by decide)

end Libdank.Uri
