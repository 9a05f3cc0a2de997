namespace LineSearch.Text

abbrev Bytes := List UInt8

def encode (s : String) : Bytes :=
  s.toList.flatMap String.utf8EncodeChar

def replacement : Char := '\ufffd'

/-- A multi-byte sequence of which the beginning has been read. The next byte has to lie between
`low` and `high`, which rules out overlong forms, surrogates and code points past the last. -/
structure Unfinished where
  missing : Nat
  low : UInt8
  high : UInt8
  bits : Nat

inductive Opening
  | character (c : Char)
  | sequence (u : Unfinished)
  | nothing

def Opening.ofByte (b : UInt8) : Opening :=
  if b < 0x80 then .character (Char.ofNat b.toNat)
  else if b < 0xc2 then .nothing
  else if b < 0xe0 then .sequence ⟨1, 0x80, 0xbf, b.toNat - 0xc0⟩
  else if b < 0xf0 then
    .sequence ⟨2, if b = 0xe0 then 0xa0 else 0x80, if b = 0xed then 0x9f else 0xbf, b.toNat - 0xe0⟩
  else if b < 0xf5 then
    .sequence ⟨3, if b = 0xf0 then 0x90 else 0x80, if b = 0xf4 then 0x8f else 0xbf, b.toNat - 0xf0⟩
  else .nothing

/-- The characters decoded so far, the last one first, and the sequence being read. A sequence that
breaks off, and a byte that can begin none, each become one replacement character, and reading goes
on with the byte that broke the sequence. -/
structure Decoder where
  decoded : List Char
  unfinished : Option Unfinished

namespace Decoder

def start : Decoder := ⟨[], none⟩

def begin (decoded : List Char) (b : UInt8) : Decoder :=
  match Opening.ofByte b with
  | .character c => ⟨c :: decoded, none⟩
  | .sequence u => ⟨decoded, some u⟩
  | .nothing => ⟨replacement :: decoded, none⟩

def feed (d : Decoder) (b : UInt8) : Decoder :=
  match d.unfinished with
  | none => begin d.decoded b
  | some u =>
    if u.low ≤ b && b ≤ u.high then
      let bits := u.bits * 64 + (b.toNat - 0x80)
      if u.missing ≤ 1 then ⟨Char.ofNat bits :: d.decoded, none⟩
      else ⟨d.decoded, some ⟨u.missing - 1, 0x80, 0xbf, bits⟩⟩
    else begin (replacement :: d.decoded) b

def finish (d : Decoder) : List Char :=
  match d.unfinished with
  | none => d.decoded.reverse
  | some _ => (replacement :: d.decoded).reverse

end Decoder

def decode (bytes : Bytes) : String :=
  String.ofList (bytes.foldl Decoder.feed Decoder.start).finish

end LineSearch.Text
