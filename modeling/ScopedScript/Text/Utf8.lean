/-!
# Reading bytes as text

Strict decoding of UTF-8.  Overlong forms, surrogates and code points above
U+10FFFF are refused, because the second byte of a sequence is held to the range
its first byte leaves open.  A byte order mark is an ordinary character.

## Main definitions

* `Text.DecodeFault`: why and where decoding stopped.
* `Text.decode`: the text of a byte sequence, or the first fault.
-/

namespace ScopedScript.Text

/-- What is wrong with a sequence of bytes. -/
inductive DecodeReason where
  | start
  | continuation
  | truncated
deriving DecidableEq

/-- **A decoding fault**: the first byte of the bad sequence, its offset, how many bytes
belong to the sequence before it goes bad, and what is wrong with it. -/
structure DecodeFault where
  byte : Nat
  offset : Nat
  size : Nat
  reason : DecodeReason
deriving DecidableEq

/-- How many bytes a sequence has, by its first byte, if it can be a first byte. -/
def sequenceWidth (byte : Nat) : Option Nat :=
  if byte < 0x80 then some 1
  else if byte < 0xC2 then none
  else if byte < 0xE0 then some 2
  else if byte < 0xF0 then some 3
  else if byte < 0xF5 then some 4
  else none

/-- Whether `second` may follow `first` in a sequence of two or more bytes. -/
def isSecond (first second : Nat) : Bool :=
  let low := if first = 0xE0 then 0xA0 else if first = 0xF0 then 0x90 else 0x80
  let high := if first = 0xED then 0x9F else if first = 0xF4 then 0x8F else 0xBF
  low ≤ second && second ≤ high

/-- Whether a byte continues a sequence. -/
def isContinuation (byte : Nat) : Bool := 0x80 ≤ byte && byte ≤ 0xBF

/-- The bytes after `first` that go on with its sequence, up to the first that does not. -/
def fitting (first : Nat) : List UInt8 → List UInt8
  | [] => []
  | second :: rest =>
    if isSecond first second.toNat then second :: rest.takeWhile (isContinuation ·.toNat)
    else []

/-- The part of the first byte of a sequence that tells how wide it is. -/
def widthMark : Nat → Nat
  | 2 => 0xC0
  | 3 => 0xE0
  | 4 => 0xF0
  | _ => 0

/-- The character of a sequence: each byte after the first brings six bits. -/
def sequenceChar (first width : Nat) (tail : List UInt8) : Char :=
  Char.ofNat (tail.foldl (fun n byte => n * 0x40 + (byte.toNat - 0x80)) (first - widthMark width))

/-- The characters of a byte sequence that starts at `offset`. -/
def decodeFrom (offset : Nat) : List UInt8 → Except DecodeFault (List Char)
  | [] => .ok []
  | first :: rest =>
    let a := first.toNat
    match sequenceWidth a with
    | none => .error ⟨a, offset, 1, .start⟩
    | some width =>
      let near := rest.take (width - 1)
      let tail := fitting a near
      if tail.length = width - 1 then
        (decodeFrom (offset + width) (rest.drop (width - 1))).map (sequenceChar a width tail :: ·)
      else
        -- the input ended if every byte at hand fits
        let reason := if tail.length = near.length then .truncated else .continuation
        .error ⟨a, offset, 1 + tail.length, reason⟩
termination_by bytes => bytes.length
decreasing_by
  simp only [List.length_drop, List.length_cons]
  omega

/-- The text that `bytes` spell, or the first fault in them. -/
def decode (bytes : List UInt8) : Except DecodeFault String :=
  (decodeFrom 0 bytes).map String.ofList

end ScopedScript.Text
