import Mathlib.Data.List.Basic
import Mathlib.Tactic

/-! Dropping privileges, after `utils/privs.c`. `setuid` and `setgid` are those of POSIX: with an
effective user of 0 they set all three IDs, and otherwise the effective one, to the real or saved. -/
namespace Libdank.Privs

structure Ids where
  real : ℕ
  effective : ℕ
  saved : ℕ
deriving DecidableEq, Repr

structure Creds where
  user : Ids
  group : Ids
deriving DecidableEq, Repr

def Ids.set (ids : Ids) (privileged : Bool) (id : ℕ) : Option Ids :=
  if privileged then some ⟨id, id, id⟩
  else if id = ids.real ∨ id = ids.saved then some { ids with effective := id }
  else none

def Creds.privileged (c : Creds) : Bool := c.user.effective = 0

def setgid (gid : ℕ) (c : Creds) : Option Creds :=
  (c.group.set c.privileged gid).map fun ids => { c with group := ids }

def setuid (uid : ℕ) (c : Creds) : Option Creds :=
  (c.user.set c.privileged uid).map fun ids => { c with user := ids }

section Drop
variable {Name : Type} (getpwnam getgrnam : Name → Option ℕ)

/-- What `drop_privs_r` does for a group; whether it goes on, and the credentials. -/
def dropGroup (groupname : Option Name) (c : Creds) : Bool × Creds :=
  match groupname with
  | none => (true, c)
  | some groupname =>
    match getgrnam groupname with
    | none => (false, c)
    | some gid =>
      match setgid gid c with
      | none => (false, c)
      | some c => (c.group.real = gid && c.group.effective = gid, c)

def dropUser (username : Option Name) (c : Creds) : Bool × Creds :=
  match username with
  | none => (true, c)
  | some username =>
    match getpwnam username with
    | none => (false, c)
    | some uid =>
      match setuid uid c with
      | none => (false, c)
      | some c => (c.user.real = uid && c.user.effective = uid, c)

def dropPrivs (username groupname : Option Name) (c : Creds) : Bool × Creds :=
  match dropGroup getgrnam groupname c with
  | (false, c) => (false, c)
  | (true, c) => dropUser getpwnam username c

end Drop

inductive Attempt where
  | setuid (uid : ℕ)
  | setgid (gid : ℕ)
deriving DecidableEq, Repr

def Creds.attempt (c : Creds) : Attempt → Creds
  | .setuid uid => (setuid uid c).getD c
  | .setgid gid => (setgid gid c).getD c

/-- Whatever is tried, it runs as this user and this group. -/
def Confined (uid gid : ℕ) (c : Creds) : Prop :=
  ∀ attempts : List Attempt, (attempts.foldl Creds.attempt c).user.real = uid ∧
    (attempts.foldl Creds.attempt c).user.effective = uid ∧
    (attempts.foldl Creds.attempt c).group.real = gid ∧ (attempts.foldl Creds.attempt c).group.effective = gid

variable {c : Creds} {id : ℕ}

theorem set_cases (ids : Ids) (privileged : Bool) (id : ℕ) :
    (privileged = true ∨ ids.real = id) ∧
        ids.set privileged id = some ⟨id, id, if privileged then id else ids.saved⟩ ∨
      ¬ (privileged = true ∨ ids.real = id) ∧ ∀ ids' ∈ ids.set privileged id, ids'.real ≠ id := by
  cases privileged with
  | true => exact .inl ⟨.inl rfl, rfl⟩
  | false =>
    rw [Ids.set, if_neg Bool.false_ne_true, if_neg Bool.false_ne_true]
    by_cases own : ids.real = id
    · exact .inl ⟨.inr own, by rw [if_pos (.inl own.symm), own]⟩
    · refine .inr ⟨not_or.mpr ⟨Bool.false_ne_true, own⟩, fun ids' done => ?_⟩
      split_ifs at done
      · obtain rfl := Option.some.inj done
        exact own
      · cases done

theorem set_same {to_ : ℕ} {ids : Ids} (done : (⟨id, id, id⟩ : Ids).set false to_ = some ids) : ids = ⟨id, id, id⟩ := by
  rw [Ids.set, if_neg Bool.false_ne_true] at done
  split_ifs at done with here
  obtain rfl := Option.some.inj done
  rw [here.elim (fun h => h) fun h => h]

theorem attempt_confined {uid gid : ℕ} (pos : uid ≠ 0) (a : Attempt) :
    Creds.attempt ⟨⟨uid, uid, uid⟩, ⟨gid, gid, gid⟩⟩ a = ⟨⟨uid, uid, uid⟩, ⟨gid, gid, gid⟩⟩ := by
  have plain : Creds.privileged ⟨⟨uid, uid, uid⟩, ⟨gid, gid, gid⟩⟩ = false := decide_eq_false pos
  cases a with
  | setuid id =>
    rw [Creds.attempt, setuid, plain]
    cases done : Ids.set ⟨uid, uid, uid⟩ false id with
    | none => rfl
    | some ids => rw [set_same done]; rfl
  | setgid id =>
    rw [Creds.attempt, setgid, plain]
    cases done : Ids.set ⟨gid, gid, gid⟩ false id with
    | none => rfl
    | some ids => rw [set_same done]; rfl

theorem confined_iff (uid gid savedUser savedGroup : ℕ) :
    Confined uid gid ⟨⟨uid, uid, savedUser⟩, ⟨gid, gid, savedGroup⟩⟩ ↔
      uid ≠ 0 ∧ savedUser = uid ∧ savedGroup = gid := by
  constructor
  · intro confined
    have pos : uid ≠ 0 := by
      rintro rfl
      exact absurd (confined [.setuid 1]).1 Nat.one_ne_zero
    have plain : Creds.privileged ⟨⟨uid, uid, savedUser⟩, ⟨gid, gid, savedGroup⟩⟩ = false := decide_eq_false pos
    refine ⟨pos, ?_, ?_⟩
    · have back := (confined [.setuid savedUser]).2.1
      rw [List.foldl_cons, List.foldl_nil, Creds.attempt, setuid, plain, Ids.set, if_neg Bool.false_ne_true,
        if_pos (.inr rfl)] at back
      exact back
    · have back := (confined [.setgid savedGroup]).2.2.2
      rw [List.foldl_cons, List.foldl_nil, Creds.attempt, setgid, plain, Ids.set, if_neg Bool.false_ne_true,
        if_pos (.inr rfl)] at back
      exact back
  · rintro ⟨pos, rfl, rfl⟩ attempts
    have stays :
        attempts.foldl Creds.attempt ⟨⟨savedUser, savedUser, savedUser⟩, ⟨savedGroup, savedGroup, savedGroup⟩⟩ =
          ⟨⟨savedUser, savedUser, savedUser⟩, ⟨savedGroup, savedGroup, savedGroup⟩⟩ := by
      induction attempts with
      | nil => rfl
      | cons a attempts ih => rw [List.foldl_cons, attempt_confined pos, ih]
    rw [stays]
    exact ⟨rfl, rfl, rfl, rfl⟩

section Dropped
variable {Name : Type} {getpwnam getgrnam : Name → Option ℕ}

theorem dropGroup_cases {groupname : Name} {gid : ℕ} (known : getgrnam groupname = some gid) (c : Creds) :
    (c.privileged = true ∨ c.group.real = gid) ∧ dropGroup getgrnam (some groupname) c =
        (true, { c with group := ⟨gid, gid, if c.privileged then gid else c.group.saved⟩ }) ∨
      ¬ (c.privileged = true ∨ c.group.real = gid) ∧ (dropGroup getgrnam (some groupname) c).1 = false := by
  simp only [dropGroup, known, setgid]
  rcases set_cases c.group c.privileged gid with ⟨may, set⟩ | ⟨mayNot, other⟩
  · exact .inl ⟨may, by simp [set]⟩
  · refine .inr ⟨mayNot, ?_⟩
    cases done : c.group.set c.privileged gid with
    | none => rfl
    | some ids => simp [other ids done]

theorem dropUser_cases {username : Name} {uid : ℕ} (known : getpwnam username = some uid) (c : Creds) :
    (c.privileged = true ∨ c.user.real = uid) ∧ dropUser getpwnam (some username) c =
        (true, { c with user := ⟨uid, uid, if c.privileged then uid else c.user.saved⟩ }) ∨
      ¬ (c.privileged = true ∨ c.user.real = uid) ∧ (dropUser getpwnam (some username) c).1 = false := by
  simp only [dropUser, known, setuid]
  rcases set_cases c.user c.privileged uid with ⟨may, set⟩ | ⟨mayNot, other⟩
  · exact .inl ⟨may, by simp [set]⟩
  · refine .inr ⟨mayNot, ?_⟩
    cases done : c.user.set c.privileged uid with
    | none => rfl
    | some ids => simp [other ids done]

/-- Privileges are dropped with success just when the program has them, or is the group and the user
already. There is no way back from that just when the user is not 0 and the program had them, or no
other ID was saved. -/
theorem dropPrivs_confined_iff {username groupname : Name} {uid gid : ℕ} (user : getpwnam username = some uid)
    (group : getgrnam groupname = some gid) (c : Creds) :
    ((dropPrivs getpwnam getgrnam (some username) (some groupname) c).1 = true ↔
      c.privileged = true ∨ c.group.real = gid ∧ c.user.real = uid) ∧
    ((dropPrivs getpwnam getgrnam (some username) (some groupname) c).1 = true →
      (Confined uid gid (dropPrivs getpwnam getgrnam (some username) (some groupname) c).2 ↔
        uid ≠ 0 ∧ (c.privileged = true ∨ c.user.saved = uid ∧ c.group.saved = gid))) := by
  have same (ids : Ids) : Creds.privileged { c with group := ids } = c.privileged := rfl
  rw [dropPrivs]
  rcases dropGroup_cases group c with ⟨may, done⟩ | ⟨mayNot, failed⟩
  · rw [done]
    simp only
    rcases dropUser_cases user { c with group := ⟨gid, gid, if c.privileged then gid else c.group.saved⟩ } with
      ⟨may', done'⟩ | ⟨mayNot', failed'⟩
    · rw [done']
      rw [same] at may'
      refine ⟨iff_of_true rfl (by tauto), fun _ => (confined_iff _ _ _ _).trans ?_⟩
      rw [same]
      cases c.privileged <;> simp
    · rw [same] at mayNot'
      rw [failed']
      exact ⟨iff_of_false Bool.false_ne_true (by tauto), fun no => absurd no Bool.false_ne_true⟩
  · rcases went : dropGroup getgrnam (some groupname) c with ⟨ok, c'⟩
    rw [went] at failed
    obtain rfl : ok = false := failed
    exact ⟨iff_of_false Bool.false_ne_true (by tauto), fun no => absurd no Bool.false_ne_true⟩

end Dropped

/-- A program that has kept a saved user of 0 drops its privileges with success, and has them back. -/
theorem dropPrivs_confined_iff_saved :
    (dropPrivs (fun _ : Unit => some 9) (fun _ => some 9) (some ()) (some ()) ⟨⟨9, 9, 0⟩, ⟨9, 9, 9⟩⟩).1 = true ∧
      ¬ Confined 9 9
        (dropPrivs (fun _ : Unit => some 9) (fun _ => some 9) (some ()) (some ()) ⟨⟨9, 9, 0⟩, ⟨9, 9, 9⟩⟩).2 := by
  have known : (fun _ : Unit => some 9) () = some 9 := rfl
  obtain ⟨done, confined⟩ := dropPrivs_confined_iff known known ⟨⟨9, 9, 0⟩, ⟨9, 9, 9⟩⟩
  have dropped := done.mpr (.inr ⟨rfl, rfl⟩)
  exact ⟨dropped, fun no => absurd ((confined dropped).mp no) (by decide)⟩

end Libdank.Privs
