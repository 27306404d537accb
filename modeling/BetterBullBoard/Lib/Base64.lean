import Mathlib.Data.List.Basic

/-! # Base64

`Buffer.toString("base64")` and `Buffer.from(text, "base64")`. Reading takes either
alphabet, passes over characters of neither and ends at the padding.
-/

namespace Base64

/-- The character of six bits. -/
def digit (n : Nat) : Char :=
  if n < 26 then Char.ofNat ('A'.toNat + n)
  else if n < 52 then Char.ofNat ('a'.toNat + (n - 26))
  else if n < 62 then Char.ofNat ('0'.toNat + (n - 52))
  else if n = 62 then '+'
  else '/'

def bits (c : Char) : Option Nat :=
  if 'A' ≤ c ∧ c ≤ 'Z' then some (c.toNat - 'A'.toNat)
  else if 'a' ≤ c ∧ c ≤ 'z' then some (c.toNat - 'a'.toNat + 26)
  else if '0' ≤ c ∧ c ≤ '9' then some (c.toNat - '0'.toNat + 52)
  else if c = '+' ∨ c = '-' then some 62
  else if c = '/' ∨ c = '_' then some 63
  else none

/-- Three bytes are four characters; the last ones may be fewer. -/
def encode : List UInt8 → List Char
  | a :: b :: c :: bytes =>
      digit (a.toNat / 4) :: digit (a.toNat % 4 * 16 + b.toNat / 16) :: digit (b.toNat % 16 * 4 + c.toNat / 64) ::
        digit (c.toNat % 64) :: encode bytes
  | [a, b] =>
      [digit (a.toNat / 4), digit (a.toNat % 4 * 16 + b.toNat / 16), digit (b.toNat % 16 * 4), '=']
  | [a] => [digit (a.toNat / 4), digit (a.toNat % 4 * 16), '=', '=']
  | [] => []

def bytes : List Nat → List UInt8
  | w :: x :: y :: z :: rest =>
      UInt8.ofNat (w * 4 + x / 16) :: UInt8.ofNat (x % 16 * 16 + y / 4) :: UInt8.ofNat (y % 4 * 64 + z) :: bytes rest
  | [w, x, y] => [UInt8.ofNat (w * 4 + x / 16), UInt8.ofNat (x % 16 * 16 + y / 4)]
  | [w, x] => [UInt8.ofNat (w * 4 + x / 16)]
  | _ => []

def decode (cs : List Char) : List UInt8 := bytes ((cs.takeWhile (· ≠ '=')).filterMap bits)

theorem bits_digit {n : Nat} (small : n < 64) : bits (digit n) = some n ∧ digit n ≠ '=' := by
  revert n
  decide

theorem sextets_cons {n : Nat} (small : n < 64) (cs : List Char) :
    ((digit n :: cs).takeWhile (· ≠ '=')).filterMap bits = n :: (cs.takeWhile (· ≠ '=')).filterMap bits := by
  obtain ⟨read, plain⟩ := bits_digit small
  rw [List.takeWhile_cons_of_pos (by simpa using plain), List.filterMap_cons_some read]

theorem ofNat_eq {n : Nat} {b : UInt8} (same : n = b.toNat) : UInt8.ofNat n = b := by
  rw [same, UInt8.ofNat_toNat]

/-- Bytes come back. -/
theorem decode_encode (bs : List UInt8) : decode (encode bs) = bs := by
  induction bs using encode.induct with
  | case1 a b c rest ih =>
      have := a.toNat_lt
      have := b.toNat_lt
      have := c.toNat_lt
      rw [decode] at ih ⊢
      rw [encode, sextets_cons (by omega), sextets_cons (by omega), sextets_cons (by omega), sextets_cons (by omega),
        bytes, ih, ofNat_eq (b := a) (by omega), ofNat_eq (b := b) (by omega), ofNat_eq (b := c) (by omega)]
  | case2 a b =>
      have := a.toNat_lt
      have := b.toNat_lt
      rw [decode, encode, sextets_cons (by omega), sextets_cons (by omega), sextets_cons (by omega)]
      simp only [ne_eq, not_true_eq_false, decide_false, Bool.false_eq_true, not_false_eq_true,
        List.takeWhile_cons_of_neg, List.filterMap_nil, bytes]
      rw [ofNat_eq (b := a) (by omega), ofNat_eq (b := b) (by omega)]
  | case3 a =>
      have := a.toNat_lt
      rw [decode, encode, sextets_cons (by omega), sextets_cons (by omega)]
      simp only [ne_eq, not_true_eq_false, decide_false, Bool.false_eq_true, not_false_eq_true,
        List.takeWhile_cons_of_neg, List.filterMap_nil, bytes]
      rw [ofNat_eq (b := a) (by omega)]
  | case4 => rfl

/-- `Buffer.from(text).toString("base64")` -/
def ofText (text : String) : String := String.ofList (encode text.toByteArray.data.toList)

/-- `Buffer.from(value, "base64").toString("utf-8")`, none where the bytes are not the
    UTF-8 of a text. -/
def toText (value : String) : Option String := String.fromUTF8? ⟨(decode value.toList).toArray⟩

theorem toText_ofText (text : String) : toText (ofText text) = some text := by
  have back : (⟨text.toByteArray.data.toList.toArray⟩ : ByteArray) = text.toByteArray := by
    rw [Array.toArray_toList]
  rw [toText, ofText, String.toList_ofList, decode_encode, back, String.fromUTF8?, dif_pos text.isValidUTF8]
  rfl

example : ofText "aé" = "YcOp" := by decide +kernel

end Base64
