import PwFilter.Complexity

/-!
# The banned-password set

`Blacklist` keeps normalized entries in a hash set and looks a password up by
its normalized key.  The key is a copy of the password, so a lookup also
returns the bytes of the key as `SecureZero` leaves them when the key is
released.
-/

namespace PwFilter

/-! ## Wiping memory -/

def secureZero : List UInt8 → ℕ → List UInt8
  | memory, 0 => memory
  | [], _ + 1 => []
  | _ :: memory, n + 1 => 0 :: secureZero memory n

theorem secureZero_eq_replicate
    {memory : List UInt8} {n : ℕ} (hcover : memory.length ≤ n) :
    secureZero memory n = List.replicate memory.length 0 := by
  induction memory generalizing n with
  | nil => cases n <;> rfl
  | cons b memory ih =>
      cases n with
      | zero => simp at hcover
      | succ n =>
          have htail := ih (n := n) (by simpa using hcover)
          rw [secureZero, htail]
          rfl

def unitBytes (s : List UInt16) : List UInt8 :=
  s.flatMap fun c : UInt16 => [c.toUInt8, (c >>> 8).toUInt8]

theorem unitBytes_length (s : List UInt16) :
    (unitBytes s).length = 2 * s.length := by
  induction s with
  | nil => rfl
  | cons c s ih =>
      have hcons : unitBytes (c :: s) =
          [c.toUInt8, (c >>> 8).toUInt8] ++ unitBytes s := rfl
      rw [hcons, List.length_append, ih, List.length_cons]
      simp only [List.length_cons, List.length_nil]
      omega

/-! ## The set -/

structure Blacklist where
  ci : Bool
  set : Finset (List UInt16)

namespace Blacklist

def new (caseInsensitive : Bool) : Blacklist :=
  { ci := caseInsensitive, set := ∅ }

def lowerAscii (c : UInt16) : UInt16 :=
  if c ≥ 0x41 ∧ c ≤ 0x5A then c + 32 else c

def normalize (bl : Blacklist) (s : List UInt16) : List UInt16 :=
  if bl.ci then s.map lowerAscii else s

def add (bl : Blacklist) (entry : List UInt16) : Blacklist :=
  if entry.isEmpty then bl
  else { bl with set := insert (bl.normalize entry) bl.set }

/-- `Contains`, with the bytes of `key` when it is released; no key is made
when the set is empty. -/
def containsRun (bl : Blacklist) (password : List UInt16) :
    Bool × List UInt8 :=
  if bl.set = ∅ then (false, [])
  else
    let key := bl.normalize password
    let found := decide (key ∈ bl.set)
    (found, secureZero (unitBytes key) (key.length * 2))

def contains (bl : Blacklist) (password : List UInt16) : Bool :=
  (bl.containsRun password).1

def size (bl : Blacklist) : ℕ := bl.set.card

def addAll (bl : Blacklist) (entries : List (List UInt16)) : Blacklist :=
  entries.foldl add bl

def ofEntries (caseInsensitive : Bool) (entries : List (List UInt16)) :
    Blacklist :=
  (new caseInsensitive).addAll entries

/-! ## Which passwords it contains -/

@[simp] theorem add_ci (bl : Blacklist) (entry : List UInt16) :
    (bl.add entry).ci = bl.ci := by
  unfold add
  split <;> rfl

@[simp] theorem normalize_add (bl : Blacklist) (entry s : List UInt16) :
    (bl.add entry).normalize s = bl.normalize s := by
  simp [normalize]

theorem mem_set_add (bl : Blacklist) (entry key : List UInt16) :
    key ∈ (bl.add entry).set ↔
      key ∈ bl.set ∨ (entry ≠ [] ∧ key = bl.normalize entry) := by
  unfold add
  by_cases hentry : entry = []
  · simp [hentry]
  · have hfull : entry.isEmpty = false := by simpa using hentry
    rw [hfull]
    simp only [Bool.false_eq_true, if_false, Finset.mem_insert, hentry, ne_eq,
      not_false_eq_true, true_and]
    exact or_comm

theorem addAll_ci (bl : Blacklist) (entries : List (List UInt16)) :
    (bl.addAll entries).ci = bl.ci := by
  induction entries generalizing bl with
  | nil => rfl
  | cons entry entries ih =>
      have hnext := ih (bl.add entry)
      rw [add_ci] at hnext
      exact hnext

theorem mem_set_addAll
    (bl : Blacklist) (entries : List (List UInt16)) (key : List UInt16) :
    key ∈ (bl.addAll entries).set ↔
      key ∈ bl.set ∨
        ∃ entry ∈ entries, entry ≠ [] ∧ key = bl.normalize entry := by
  induction entries generalizing bl with
  | nil => simp [addAll]
  | cons entry entries ih =>
      have hnext := ih (bl.add entry)
      have hcons : bl.addAll (entry :: entries) =
          (bl.add entry).addAll entries := rfl
      rw [hcons, hnext, mem_set_add]
      simp only [normalize_add, List.mem_cons, exists_eq_or_imp, or_assoc]

theorem contains_iff (bl : Blacklist) (password : List UInt16) :
    bl.contains password = true ↔ bl.normalize password ∈ bl.set := by
  unfold contains containsRun
  by_cases hempty : bl.set = ∅
  · simp [hempty]
  · simp [hempty]

theorem lowerAscii_eq : lowerAscii = foldCase :=
  funext fun _ => if_congr Iff.rfl rfl rfl

theorem contains_ofEntries_iff
    (ci : Bool) (entries : List (List UInt16)) (password : List UInt16) :
    (ofEntries ci entries).contains password = true ↔
      ∃ entry ∈ entries, entry ≠ [] ∧
        if ci then lowered entry = lowered password else entry = password := by
  have hci : (ofEntries ci entries).ci = ci := addAll_ci (new ci) entries
  rw [contains_iff, ofEntries, mem_set_addAll]
  have hnormal : ∀ s, (new ci).normalize s =
      if ci then lowered s else s := by
    intro s
    rw [normalize, lowerAscii_eq]
    rfl
  have hsame : ((new ci).addAll entries).normalize password =
      (new ci).normalize password := by
    have hkeep : ((new ci).addAll entries).ci = (new ci).ci := addAll_ci _ _
    simp only [normalize, hkeep]
  have hstart : (new ci).set = ∅ := rfl
  rw [hsame, hstart]
  simp only [Finset.notMem_empty, false_or, hnormal]
  cases ci with
  | true => simp only [if_true, eq_comm]
  | false => simp only [Bool.false_eq_true, if_false, eq_comm]

theorem containsRun_key_wiped
    (bl : Blacklist) (password : List UInt16) :
    ∀ b ∈ (bl.containsRun password).2, b = 0 := by
  unfold containsRun
  by_cases hempty : bl.set = ∅
  · simp [hempty]
  · have hcover : (unitBytes (bl.normalize password)).length ≤
        (bl.normalize password).length * 2 := by
      rw [unitBytes_length]
      omega
    simp only [hempty, if_false, secureZero_eq_replicate hcover]
    intro b hb
    exact List.eq_of_mem_replicate hb

end Blacklist

end PwFilter
