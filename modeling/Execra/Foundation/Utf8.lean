import Mathlib.Tactic.Common

/-!
Lossy UTF-8 decoding as `String::from_utf8_lossy` performs it: well-formed
sequences decode to their character, and every maximal ill-formed prefix is
replaced by one U+FFFD.
-/

namespace Execra.Utf8

def replacement : Char := Char.ofNat 0xFFFD

def isContinuation (b : UInt8) : Bool := b &&& 0xC0 == 0x80

/-- The second byte a three-byte lead admits. -/
def admits3 (lead b : UInt8) : Bool :=
  if lead == 0xE0 then 0xA0 ≤ b && b ≤ 0xBF
  else if lead == 0xED then 0x80 ≤ b && b ≤ 0x9F
  else 0x80 ≤ b && b ≤ 0xBF

/-- The second byte a four-byte lead admits. -/
def admits4 (lead b : UInt8) : Bool :=
  if lead == 0xF0 then 0x90 ≤ b && b ≤ 0xBF
  else if lead == 0xF4 then 0x80 ≤ b && b ≤ 0x8F
  else 0x80 ≤ b && b ≤ 0xBF

/-- `core::str::utf8_char_width`; 0 for a byte that starts no sequence. -/
def width (b : UInt8) : Nat :=
  if b < 0x80 then 1
  else if b < 0xC2 then 0
  else if b < 0xE0 then 2
  else if b < 0xF0 then 3
  else if b < 0xF5 then 4
  else 0

def low6 (b : UInt8) : Nat := (b &&& 0x3F).toNat

def char2 (a b : UInt8) : Char := Char.ofNat ((a &&& 0x1F).toNat * 64 + low6 b)

def char3 (a b c : UInt8) : Char :=
  Char.ofNat ((a &&& 0x0F).toNat * 4096 + low6 b * 64 + low6 c)

def char4 (a b c e : UInt8) : Char :=
  Char.ofNat ((a &&& 0x07).toNat * 262144 + low6 b * 4096 + low6 c * 64 + low6 e)

/-- The first character of a non-empty sequence, and how many bytes after its
first one it takes. -/
def decodeOne (a : UInt8) (rest : List UInt8) : Char × Nat :=
  match width a, rest with
  | 1, _ => (Char.ofNat a.toNat, 0)
  | 2, b :: _ => if isContinuation b then (char2 a b, 1) else (replacement, 0)
  | 3, b :: more =>
      if admits3 a b then
        match more with
        | c :: _ => if isContinuation c then (char3 a b c, 2) else (replacement, 1)
        | [] => (replacement, 1)
      else (replacement, 0)
  | 4, b :: more =>
      if admits4 a b then
        match more with
        | c :: e :: _ =>
            if isContinuation c then
              if isContinuation e then (char4 a b c e, 3) else (replacement, 2)
            else (replacement, 1)
        | [c] => if isContinuation c then (replacement, 2) else (replacement, 1)
        | [] => (replacement, 1)
      else (replacement, 0)
  | _, _ => (replacement, 0)

/-- Decodes with `skip` bytes of the current sequence still to be passed
over, so that the recursion follows the list. -/
def decodeFrom : Nat → List UInt8 → List Char
  | _, [] => []
  | skip + 1, _ :: rest => decodeFrom skip rest
  | 0, a :: rest => (decodeOne a rest).1 :: decodeFrom (decodeOne a rest).2 rest

/-- `String::from_utf8_lossy`. -/
def fromUtf8Lossy (bytes : List UInt8) : String := String.ofList (decodeFrom 0 bytes)

example : fromUtf8Lossy [0x68, 0xC3, 0xA9, 0xFF, 0xE2, 0x82] = "hé\uFFFD\uFFFD" := by decide

/-! A line feed. -/

theorem ofNat_ne_lineFeed {n : Nat} (h : n ≠ 10) : Char.ofNat n ≠ '\n' := by
  intro heq
  by_cases hvalid : n.isValidChar
  · rw [Char.ofNat, dif_pos hvalid] at heq
    exact h (congrArg Char.toNat heq)
  · rw [Char.ofNat, dif_neg hvalid] at heq
    exact absurd heq (by decide)

private theorem forall_bytes {p : UInt8 → Prop} (h : ∀ n < 256, p (UInt8.ofNat n)) (b : UInt8) :
    p b := by
  have hb := h b.toNat b.toNat_lt
  rwa [UInt8.ofNat_toNat] at hb

/-- A sequence of several bytes stands for a number beyond the single bytes. -/
private theorem lead2 : ∀ a : UInt8, width a = 2 → 2 ≤ (a &&& 0x1F).toNat :=
  forall_bytes (by decide +kernel)

private theorem lead3 : ∀ a : UInt8, width a = 3 → a = 0xE0 ∨ 1 ≤ (a &&& 0x0F).toNat :=
  forall_bytes (by decide +kernel)

private theorem second3 : ∀ b : UInt8, admits3 0xE0 b = true → 32 ≤ low6 b :=
  forall_bytes (by decide +kernel)

private theorem lead4 : ∀ a : UInt8, width a = 4 → a = 0xF0 ∨ 1 ≤ (a &&& 0x07).toNat :=
  forall_bytes (by decide +kernel)

private theorem second4 : ∀ b : UInt8, admits4 0xF0 b = true → 16 ≤ low6 b :=
  forall_bytes (by decide +kernel)

theorem replacement_ne_lineFeed : replacement ≠ '\n' := by decide

/-- Only the byte of a line feed decodes to one. -/
theorem decodeOne_ne_lineFeed {a : UInt8} (h : a ≠ 0x0A) (rest : List UInt8) :
    (decodeOne a rest).1 ≠ '\n' := by
  unfold decodeOne
  split
  · refine ofNat_ne_lineFeed (fun hten => h ?_)
    exact UInt8.toNat_inj.mp hten
  · next b more hwidth =>
      split
      · have hlead := lead2 a hwidth
        exact ofNat_ne_lineFeed (by omega)
      · exact replacement_ne_lineFeed
  · next b more hwidth =>
      split
      · next hadmits =>
          have hsecond : a = 0xE0 → 32 ≤ low6 b := fun ha => second3 b (ha ▸ hadmits)
          have hlead := lead3 a hwidth
          split
          · split
            · refine ofNat_ne_lineFeed ?_
              rcases hlead with ha | hlead
              · have := hsecond ha
                omega
              · omega
            · exact replacement_ne_lineFeed
          · exact replacement_ne_lineFeed
      · exact replacement_ne_lineFeed
  · next b more hwidth =>
      split
      · next hadmits =>
          have hsecond : a = 0xF0 → 16 ≤ low6 b := fun ha => second4 b (ha ▸ hadmits)
          have hlead := lead4 a hwidth
          split
          · split
            · split
              · refine ofNat_ne_lineFeed ?_
                rcases hlead with ha | hlead
                · have := hsecond ha
                  omega
                · omega
              · exact replacement_ne_lineFeed
            · exact replacement_ne_lineFeed
          · split <;> exact replacement_ne_lineFeed
          · exact replacement_ne_lineFeed
      · exact replacement_ne_lineFeed
  · exact replacement_ne_lineFeed

theorem lineFeed_not_mem_decodeFrom {bytes : List UInt8} (h : 0x0A ∉ bytes) (skip : Nat) :
    '\n' ∉ decodeFrom skip bytes := by
  induction bytes generalizing skip with
  | nil => cases skip <;> exact List.not_mem_nil
  | cons a rest ih =>
      obtain ⟨ha, hrest⟩ := not_or.mp (fun hmem => h (List.mem_cons.mpr hmem))
      cases skip with
      | zero =>
          rw [decodeFrom, List.mem_cons, not_or]
          exact ⟨(decodeOne_ne_lineFeed (Ne.symm ha) rest).symm, ih hrest _⟩
      | succ skip => exact ih hrest skip

theorem lineFeed_not_mem_fromUtf8Lossy {bytes : List UInt8} (h : 0x0A ∉ bytes) :
    '\n' ∉ (fromUtf8Lossy bytes).toList := by
  rw [fromUtf8Lossy, String.toList_ofList]
  exact lineFeed_not_mem_decodeFrom h 0

end Execra.Utf8
