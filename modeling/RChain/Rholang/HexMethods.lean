import RChain.Rholang.Accounting

/-!
# Hexadecimal methods

Source: `hexToBytes`, `bytesToHex`, `hex_decode` and `hex_encode` of `rholang/src/reduce.rs`.

A string is the list of its characters. The decoder takes it apart at byte positions, two bytes at a
time, and hands each piece to `u8::from_str_radix`; a cut inside a character panics, which is `none`
here. The parser takes a leading plus sign.
-/

namespace RChain.Rholang

open Models BitCodec List

/-- The name of the type of an expression. -/
def typ : Expr Par → String
  | .gBool _ => "Bool"
  | .gInt _ => "Int"
  | .gBigInt _ => "BigInt"
  | .gString _ => "String"
  | .gUri _ => "Uri"
  | .gByteArray _ => "ByteArray"
  | .eList _ => "List"
  | .eTuple _ => "Tuple"
  | .eSet _ => "Set"
  | .eMap _ => "Map"
  | _ => "Unit"

/-- `char::to_digit(16)`. -/
def toDigit (c : Char) : Option Nat :=
  if '0' ≤ c ∧ c ≤ '9' then some (c.toNat - 48)
  else if 'a' ≤ c ∧ c ≤ 'f' then some (c.toNat - 87)
  else if 'A' ≤ c ∧ c ≤ 'F' then some (c.toNat - 55)
  else none

def digitsValue (digits : List Char) : Option Byte := do
  let value ← digits.foldlM (fun acc c => (toDigit c).map (16 * acc + ·)) 0
  if value < 256 then some (Fin.ofNat 256 value) else none

/-- `u8::from_str_radix(_, 16)`: a sign alone is not a number. -/
def fromStrRadix : List Char → Option Byte
  | [] => none
  | first :: rest =>
    if first = '+' then if rest = [] then none else digitsValue rest
    else digitsValue (first :: rest)

def utf8Len (s : List Char) : Nat := (s.map Char.utf8Size).sum

/-- A parsed piece before the rest: the first failure ends the collection. -/
def consPiece (piece : Option Byte) (rest : Option (Option (List Byte))) :
    Option (Option (List Byte)) :=
  match piece with
  | none => some none
  | some byte => rest.map (Option.map (byte :: ·))

/-- The pieces `s[i..i + 2]` of a string of even length. -/
def hexPieces : List Char → Option (Option (List Byte))
  | [] => some (some [])
  | [a] => if a.utf8Size = 2 then consPiece (fromStrRadix [a]) (some (some [])) else none
  | a :: b :: rest =>
    if a.utf8Size = 1 ∧ b.utf8Size = 1 then consPiece (fromStrRadix [a, b]) (hexPieces rest)
    else if a.utf8Size = 2 then consPiece (fromStrRadix [a]) (hexPieces (b :: rest))
    else none

def hexDecode (s : List Char) : Option (Option (List Byte)) :=
  if utf8Len s % 2 ≠ 0 then some none else hexPieces s

/-- A digit of `format!("\x7b:02x\x7d")`. -/
def hexDigit (n : Nat) : Char := if n < 10 then Char.ofNat (48 + n) else Char.ofNat (87 + n)

def hexEncode (bytes : List Byte) : List Char :=
  bytes.flatMap fun b => [hexDigit (b.val / 16), hexDigit (b.val % 16)]

def checkArity (method : String) (expected : Nat) (args : List Par) :
    Except RholangError Unit :=
  if args.length ≠ expected then
    .error (.methodArgumentNumberMismatch method (Int32.ofNat expected) (Int32.ofNat args.length))
  else .ok ()

def decodeError : RholangError :=
  .reduceError "Error: exception was thrown when decoding input string to hexadecimal"

/-- The answer by what the decoder returned; the answer `none` is a panic. -/
def decoded : Option (Option (List Byte)) → Except RholangError (Option (Expr Par))
  | none => .ok none
  | some none => .error decodeError
  | some (some bytes) => .ok (some (.gByteArray bytes))

/-- The method on an evaluated target. -/
def hexToBytes (target : Expr Par) (args : List Par) : Charging (Option (Expr Par)) :=
  match checkArity "hexToBytes" 0 args, target with
  | .error error, _ => .done (.error error)
  | .ok _, .gString s =>
    .charge ⟨Int64.ofNat (utf8Len s.toList), "hex to bytes"⟩ (.done (decoded (hexDecode s.toList)))
  | .ok _, other => .done (.error (.methodNotDefined "hexToBytes" (typ other)))

def bytesToHex (target : Expr Par) (args : List Par) : Charging (Option (Expr Par)) :=
  match checkArity "bytesToHex" 0 args, target with
  | .error error, _ => .done (.error error)
  | .ok _, .gByteArray bytes =>
    .charge ⟨Int64.ofNat bytes.length, "bytes to hex"⟩
      (.done (.ok (some (.gString (String.ofList (hexEncode bytes))))))
  | .ok _, other => .done (.error (.methodNotDefined "bytesToHex" (typ other)))

/-- What the methods are for: the bytes of an even number of hexadecimal digits. -/
def hexBytes : List Char → Option (List Byte)
  | [] => some []
  | [_] => none
  | a :: b :: rest =>
    match toDigit a, toDigit b with
    | some x, some y => (hexBytes rest).map (Fin.ofNat 256 (16 * x + y) :: ·)
    | _, _ => none

/-- The call that answers with these bytes, or with the error. -/
def answering (s : String) (bytes : Option (List Byte)) : Charging (Option (Expr Par)) :=
  .charge ⟨Int64.ofNat (utf8Len s.toList), "hex to bytes"⟩ (.done (match bytes with
    | some bytes => .ok (some (.gByteArray bytes))
    | none => .error decodeError))

/-- Pairs of a digit and a digit or of a plus sign and a digit. -/
def SignedPairs : List Char → Prop
  | [] => True
  | [_] => False
  | a :: b :: rest => (a = '+' ∨ (toDigit a).isSome) ∧ (toDigit b).isSome ∧ SignedPairs rest

/-- After some pairs that the parser takes, two bytes end inside a character. -/
def CutLater : List Char → Prop
  | [] => False
  | [a] => 2 < a.utf8Size
  | a :: b :: rest => 2 < a.utf8Size ∨ a.utf8Size = 1 ∧ b.utf8Size ≠ 1 ∨
    SignedPairs [a, b] ∧ CutLater rest

/-- A plus sign is taken for a digit, or a character is cut. -/
def Misread (s : List Char) : Prop :=
  utf8Len s % 2 = 0 ∧ (SignedPairs s ∧ '+' ∈ s ∨ CutLater s)

section Pieces

theorem digit_narrow {c : Char} {d : Nat} (digit : toDigit c = some d) :
    c.utf8Size = 1 ∧ d < 16 ∧ c ≠ '+' := by
  unfold toDigit at digit
  simp only [Char.le_def, UInt32.le_iff_toNat_le] at digit
  have value : c.toNat = c.val.toNat := rfl
  have small : c.val.toNat ≤ 127 ∧ d < 16 ∧ c.val.toNat ≠ 43 := by
    split_ifs at digit with first second third <;> cases digit
    · exact ⟨first.2.trans (by decide), by have := first.2; simp at this; omega,
        by have := first.1; simp at this; omega⟩
    · exact ⟨second.2.trans (by decide), by have := second.2; simp at this; omega,
        by have := second.1; simp at this; omega⟩
    · exact ⟨third.2.trans (by decide), by have := third.2; simp at this; omega,
        by have := third.1; simp at this; omega⟩
  refine ⟨?_, small.2.1, ?_⟩
  · rw [Char.utf8Size, if_pos (UInt32.le_iff_toNat_le.mpr small.1)]
  · rintro rfl
    exact small.2.2 rfl

theorem radix_wide {c : Char} (wide : c.utf8Size ≠ 1) : fromStrRadix [c] = none := by
  have plus : c ≠ '+' := by
    rintro rfl
    exact wide rfl
  have digit : toDigit c = none := by
    cases found : toDigit c with
    | none => rfl
    | some => exact absurd (digit_narrow found).1 wide
  simp [fromStrRadix, digitsValue, plus, digit]

theorem radix_pair {a b : Char} {y : Nat} (second : toDigit b = some y) :
    fromStrRadix [a, b] = if a = '+' then some (Fin.ofNat 256 y)
      else (toDigit a).map fun x => Fin.ofNat 256 (16 * x + y) := by
  have small := (digit_narrow second).2.1
  have fits : y < 256 := by omega
  by_cases sign : a = '+'
  · simp [fromStrRadix, digitsValue, sign, second, fits]
  · cases first : toDigit a with
    | none => simp [fromStrRadix, digitsValue, sign, first]
    | some x =>
      have below := (digit_narrow first).2.1
      have fitsBoth : 16 * x + y < 256 := by omega
      simp [fromStrRadix, digitsValue, sign, first, second, fitsBoth]

theorem radix_fails {a b : Char} (other : toDigit b = none) : fromStrRadix [a, b] = none := by
  by_cases sign : a = '+'
  · simp [fromStrRadix, digitsValue, sign, other]
  · cases first : toDigit a <;> simp [fromStrRadix, digitsValue, sign, first, other]

/-- What the decoder makes of a string of even length. -/
theorem pieces_cases (s : List Char) (even : utf8Len s % 2 = 0) :
    ¬ SignedPairs s ∧ CutLater s ∧ hexPieces s = none ∨
    SignedPairs s ∧ ¬ CutLater s ∧ (∃ bytes, hexPieces s = some (some bytes) ∧
      hexBytes s = if '+' ∈ s then none else some bytes) ∨
    ¬ SignedPairs s ∧ ¬ CutLater s ∧ hexPieces s = some none ∧ hexBytes s = none := by
  match s with
  | [] => exact .inr (.inl ⟨trivial, id, [], rfl, rfl⟩)
  | [a] =>
    have sizes := a.utf8Size_pos
    simp only [utf8Len, map_cons, map_nil, sum_cons, sum_nil] at even
    by_cases two : a.utf8Size = 2
    · refine .inr (.inr ⟨id, ?_, ?_, rfl⟩)
      · rw [CutLater]
        omega
      · rw [hexPieces, if_pos two, radix_wide (by omega), consPiece]
    · refine .inl ⟨id, ?_, if_neg two⟩
      rw [CutLater]
      omega
  | a :: b :: rest =>
    have pieces : hexPieces (a :: b :: rest) =
        if a.utf8Size = 1 ∧ b.utf8Size = 1 then consPiece (fromStrRadix [a, b]) (hexPieces rest)
        else if a.utf8Size = 2 then consPiece (fromStrRadix [a]) (hexPieces (b :: rest))
        else none := by rw [hexPieces]
    have positive := a.utf8Size_pos
    by_cases narrow : a.utf8Size = 1 ∧ b.utf8Size = 1
    · have shorter : utf8Len rest % 2 = 0 := by
        simp only [utf8Len, map_cons, sum_cons] at even ⊢
        omega
      rw [if_pos narrow] at pieces
      simp only [CutLater, narrow, SignedPairs, and_true, pieces]
      cases second : toDigit b with
      | none => simp [radix_fails second, consPiece, hexBytes, second]
      | some =>
        rw [radix_pair second]
        by_cases sign : a = '+'
        · subst sign
          have first : toDigit '+' = none := by decide
          rcases pieces_cases rest shorter with ⟨no, cut, out⟩ | ⟨yes, uncut, _, out, _⟩ |
            ⟨no, uncut, out, _⟩
          · simp [no, cut, out, consPiece]
          · simp [yes, uncut, out, consPiece, hexBytes, first]
          · simp [no, uncut, out, consPiece, hexBytes, first]
        · have unsigned : '+' ∈ a :: b :: rest ↔ '+' ∈ rest := by
            have digit := (digit_narrow second).2.2
            simp [Ne.symm sign, digit.symm]
          cases first : toDigit a with
          | none => simp [sign, consPiece, hexBytes, first]
          | some =>
            rcases pieces_cases rest shorter with ⟨no, cut, out⟩ | ⟨yes, uncut, _, out, value⟩ |
              ⟨no, uncut, out, value⟩
            · simp [no, cut, out, sign, consPiece]
            · simp only [unsigned]
              refine .inr (.inl ?_)
              by_cases plus : '+' ∈ rest <;>
                simp [yes, uncut, out, sign, consPiece, hexBytes, first, second, value, plus]
            · simp [no, uncut, out, sign, consPiece, hexBytes, first, second, value]
    · have digits : ¬ ((a = '+' ∨ (toDigit a).isSome) ∧ (toDigit b).isSome) := by
        rintro ⟨first, second⟩
        obtain ⟨_, second⟩ := Option.isSome_iff_exists.mp second
        refine narrow ⟨?_, (digit_narrow second).1⟩
        rcases first with rfl | first
        · decide
        · obtain ⟨_, first⟩ := Option.isSome_iff_exists.mp first
          exact (digit_narrow first).1
      have refused : ¬ SignedPairs (a :: b :: rest) := fun pairs => digits ⟨pairs.1, pairs.2.1⟩
      have empty : hexBytes (a :: b :: rest) = none := by
        rw [hexBytes]
        split
        · rename_i x y first second
          exact absurd ⟨.inr (by rw [first]; rfl), by rw [second]; rfl⟩ digits
        · rfl
      rw [if_neg narrow] at pieces
      simp only [CutLater, SignedPairs, and_true, digits, false_and, or_false, pieces]
      by_cases two : a.utf8Size = 2
      · refine .inr (.inr ⟨refused, by omega, ?_, empty⟩)
        rw [if_pos two, radix_wide (by omega), consPiece]
      · exact .inl ⟨refused, by omega, if_neg two⟩

theorem digits_decode (s : List Char) {bytes : List Byte} (digits : hexBytes s = some bytes) :
    hexDecode s = some (some bytes) := by
  suffices both : utf8Len s % 2 = 0 ∧ hexPieces s = some (some bytes) by
    rw [hexDecode, if_neg (by omega), both.2]
  match s with
  | [] =>
    cases digits
    exact ⟨rfl, rfl⟩
  | a :: b :: rest =>
    rw [hexBytes] at digits
    split at digits
    · rename_i x y first second
      obtain ⟨_, below, rfl⟩ := Option.map_eq_some_iff.mp digits
      have ih := digits_decode rest below
      have narrow := digit_narrow first
      have width := (digit_narrow second).1
      have even : utf8Len rest % 2 = 0 := by
        by_contra odd
        simp [hexDecode, odd] at ih
      rw [hexDecode, if_neg (by omega)] at ih
      constructor
      · simp only [utf8Len, map_cons, sum_cons] at even ⊢
        omega
      · rw [hexPieces, if_pos ⟨narrow.1, width⟩, radix_pair second, if_neg narrow.2.2, first, ih]
        rfl
    · cases digits

theorem decode_exact_iff (s : List Char) : hexDecode s = some (hexBytes s) ↔ ¬ Misread s := by
  by_cases even : utf8Len s % 2 = 0
  · simp only [hexDecode, Misread, even, ne_eq, not_true_eq_false, if_false, true_and]
    rcases pieces_cases s even with ⟨no, cut, out⟩ | ⟨yes, uncut, _, out, value⟩ |
      ⟨no, uncut, out, value⟩
    · simp [no, cut, out]
    · by_cases plus : '+' ∈ s <;> simp [yes, uncut, out, value, plus]
    · simp [no, uncut, out, value]
  · have odd : hexBytes s = none := by
      cases digits : hexBytes s with
      | none => rfl
      | some =>
        have read := digits_decode s digits
        simp [hexDecode, even] at read
    simp [hexDecode, Misread, even, odd]

theorem to_digit_hex_digit : ∀ n < 16, toDigit (hexDigit n) = some n := by decide

theorem bytes_of_encoded (bytes : List Byte) : hexBytes (hexEncode bytes) = some bytes := by
  induction bytes with
  | nil => rfl
  | cons b bytes ih =>
    have bound := b.isLt
    have halves : 16 * (b.val / 16) + b.val % 16 = b.val := Nat.div_add_mod b.val 16
    change hexBytes (_ :: _ :: hexEncode bytes) = _
    simp [hexBytes, to_digit_hex_digit _ (show b.val / 16 < 16 by omega),
      to_digit_hex_digit _ (Nat.mod_lt b.val (by decide)), ih, halves]

end Pieces

/-- The decoder is right on a string exactly when no sign is taken for a digit and no character is
cut, and what `bytesToHex` writes it reads. -/
theorem hex_methods_iff (s : String) :
    (hexToBytes (.gString s) [] = answering s (hexBytes s.toList) ↔ ¬ Misread s.toList) ∧
    ∀ bytes, ∃ text, bytesToHex (.gByteArray bytes) [] =
        .charge ⟨Int64.ofNat bytes.length, "bytes to hex"⟩ (.done (.ok (some (.gString text)))) ∧
      hexToBytes (.gString text) [] = answering text (some bytes) := by
  have called (s : String) : hexToBytes (.gString s) [] =
      .charge ⟨Int64.ofNat (utf8Len s.toList), "hex to bytes"⟩
        (.done (decoded (hexDecode s.toList))) := rfl
  constructor
  · rw [← decode_exact_iff, called]
    unfold answering
    rcases hexDecode s.toList with _ | _ | found <;> cases hexBytes s.toList <;> simp [decoded]
  · intro bytes
    refine ⟨String.ofList (hexEncode bytes), rfl, ?_⟩
    rw [called, String.toList_ofList, digits_decode _ (bytes_of_encoded bytes)]
    unfold answering
    rw [String.toList_ofList]
    rfl

/-- A sign is read as a digit, and a string with a character of two bytes panics. -/
theorem hex_misreads : hexToBytes (.gString "+f") [] =
        .charge ⟨2, "hex to bytes"⟩ (.done (.ok (some (.gByteArray [15])))) ∧
      hexToBytes (.gString "aéa") [] = .charge ⟨4, "hex to bytes"⟩ (.done (.ok none)) ∧
      hexBytes "+f".toList = none ∧ hexBytes "aéa".toList = none :=
  ⟨rfl, rfl, rfl, rfl⟩

end RChain.Rholang
