import RegexEngine.Engine.Value

/-!
# Encoded values

A value is stored as the number of bytes of its source, the source in UTF-8, and the word of its
flags; numbers are 32 bits wide with the smallest byte first.  Neither code nor the last index is
stored.

## Main definitions

* `Codec.encode` — the bytes of a value.
* `Codec.decode` — the value at the front of a row of bytes, and the rest.
-/

namespace RegexEngine

namespace Codec

/-- The four bytes of a number, the smallest first. -/
def wordBytes (n : Nat) : List UInt8 :=
  [UInt8.ofNat n, UInt8.ofNat (n / 0x100), UInt8.ofNat (n / 0x10000), UInt8.ofNat (n / 0x1000000)]

/-- The number at the front. -/
def readWord : List UInt8 → Except RegexError Nat × List UInt8
  | a :: b :: c :: d :: rest =>
    (.ok (a.toNat + b.toNat * 0x100 + c.toNat * 0x10000 + d.toNat * 0x1000000), rest)
  | bytes => (.error .truncatedData, bytes)

/-- The bytes of a source. -/
def sourceBytes (source : String) : List UInt8 := source.toUTF8.toList

/-- The source that has given bytes. -/
def sourceOf? (bytes : List UInt8) : Option String := String.fromUTF8? ⟨bytes.toArray⟩

/-- The bytes of a value.  A source whose length does not fit 32 bits is refused. -/
def encode (v : Value) : Except RegexError (List UInt8) :=
  let source := sourceBytes v.source
  if source.length < 0x100000000 then
    .ok (wordBytes source.length ++ source ++ wordBytes v.flags.toWord)
  else .error .sourceTooLong

/-- Read the flags and make the value. -/
def decodeFlags (source : String) (bytes : List UInt8) : Except RegexError Value × List UInt8 :=
  match readWord bytes with
  | (.error e, rest) => (.error e, rest)
  | (.ok word, rest) => (Flags.ofWord word >>= Value.createPlain source, rest)

/-- Read one value from the front.  The answer comes with the bytes that were not used, also
after a failure. -/
def decode (bytes : List UInt8) : Except RegexError Value × List UInt8 :=
  match readWord bytes with
  | (.error e, rest) => (.error e, rest)
  | (.ok n, rest) =>
    if rest.length < n then (.error .truncatedData, rest)
    else
      match sourceOf? (rest.take n) with
      | none => (.error .sourceNotUtf8, rest)
      | some source => decodeFlags source (rest.drop n)

end Codec

end RegexEngine
