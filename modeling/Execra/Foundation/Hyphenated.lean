import Mathlib.Tactic.IntervalCases
import Mathlib.Tactic.Ring

/-!
The hyphenated text of a number of 128 bits: 32 lowercase hexadecimal digits in
groups of 8, 4, 4, 4 and 12. Reading accepts the other case of a letter as well.
-/

namespace Execra.Hyphenated

/-- The last digits of a number. -/
def digits : Nat → Nat → List Char
  | 0, _ => []
  | count + 1, n => digits count (n / 16) ++ [Nat.digitChar (n % 16)]

def digitValue (c : Char) : Option Nat :=
  if '0' ≤ c ∧ c ≤ '9' then some (c.toNat - 48)
  else if 'a' ≤ c ∧ c ≤ 'f' then some (c.toNat - 87)
  else if 'A' ≤ c ∧ c ≤ 'F' then some (c.toNat - 55)
  else none

/-- One more digit. -/
def push (n : Nat) (c : Char) : Option Nat := (digitValue c).map (fun value => 16 * n + value)

def ofDigits (text : List Char) : Option Nat := text.foldlM push 0

def groups (n : Nat) : List (List Char) :=
  [digits 8 (n / 16 ^ 24), digits 4 (n / 16 ^ 20), digits 4 (n / 16 ^ 16), digits 4 (n / 16 ^ 12),
    digits 12 n]

def write (n : Nat) : String := String.ofList (List.intercalate ['-'] (groups n))

def parse (text : String) : Option Nat :=
  let groups := text.toList.splitOn '-'
  if groups.map List.length = [8, 4, 4, 4, 12] then ofDigits groups.flatten else none

theorem digitValue_digitChar {d : Nat} (h : d < 16) : digitValue (Nat.digitChar d) = some d := by
  interval_cases d <;> decide

theorem digitChar_ne_hyphen {d : Nat} (h : d < 16) : Nat.digitChar d ≠ '-' := by
  interval_cases d <;> decide

theorem hyphen_notMem_digits (count n : Nat) : '-' ∉ digits count n := by
  induction count generalizing n with
  | zero => exact List.not_mem_nil
  | succ count ih =>
      have hlast : n % 16 < 16 := Nat.mod_lt n (by omega)
      rw [digits, List.mem_append, List.mem_singleton, not_or]
      exact ⟨ih (n / 16), (digitChar_ne_hyphen hlast).symm⟩

theorem length_digits (count n : Nat) : (digits count n).length = count := by
  induction count generalizing n with
  | zero => rfl
  | succ count ih => rw [digits, List.length_append, ih, List.length_singleton]

/-- Digits are read on from whatever was read before them. -/
theorem foldlM_digits (count n before : Nat) :
    (digits count n).foldlM push before = some (16 ^ count * before + n % 16 ^ count) := by
  induction count generalizing n with
  | zero => simp [digits, Nat.mod_one]
  | succ count ih =>
      have hlast := digitValue_digitChar (Nat.mod_lt n (by omega : 0 < 16))
      have hsplit : n % 16 ^ (count + 1) = n % 16 + 16 * (n / 16 % 16 ^ count) := by
        rw [pow_succ', Nat.mod_mul]
      rw [digits, List.foldlM_append, ih, Option.bind_eq_bind, Option.bind_some, List.foldlM_cons,
        push, hlast, hsplit]
      simp only [Option.map_some, Option.bind_eq_bind, Option.bind_some, List.foldlM_nil,
        Option.pure_def, Option.some.injEq]
      ring

/-- What is written is read back. -/
theorem parse_write {n : Nat} (h : n < 2 ^ 128) : parse (write n) = some n := by
  have hgroups : (write n).toList.splitOn '-' = groups n := by
    rw [write, String.toList_ofList]
    apply List.splitOn_intercalate
    · simp [groups, hyphen_notMem_digits]
    · simp [groups]
  have hlengths : (groups n).map List.length = [8, 4, 4, 4, 12] := by
    simp [groups, length_digits]
  have hread : ofDigits (groups n).flatten = some n := by
    simp only [ofDigits, groups, List.flatten_cons, List.flatten_nil, List.append_nil,
      List.foldlM_append, foldlM_digits, Option.bind_eq_bind, Option.bind_some, Option.some.injEq]
    omega
  rw [parse, hgroups, if_pos hlengths, hread]

end Execra.Hyphenated
