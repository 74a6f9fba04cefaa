/-! UTF-8 as a machine on bytes. Malformed input gives one U+FFFD per maximal subpart, and the
offending byte is read again as a first byte. -/
namespace MessageCatalog.Charset

def replacementChar : Char := '\uFFFD'

namespace Utf8

/-- Inside a character the next byte lies between `low` and `high`, `more` bytes follow it and
`bits` is accumulated. -/
inductive State where
  | between
  | inside (more low high bits : Nat)
  deriving DecidableEq, Repr

/-- Bounds on the second byte exclude overlong forms, surrogates and values above U+10FFFF. -/
def first (b : Nat) : List Char × State :=
  if b < 0x80 then ([Char.ofNat b], .between)
  else if b < 0xC2 then ([replacementChar], .between)
  else if b < 0xE0 then ([], .inside 0 0x80 0xBF (b - 0xC0))
  else if b = 0xE0 then ([], .inside 1 0xA0 0xBF 0)
  else if b = 0xED then ([], .inside 1 0x80 0x9F 0xD)
  else if b < 0xF0 then ([], .inside 1 0x80 0xBF (b - 0xE0))
  else if b = 0xF0 then ([], .inside 2 0x90 0xBF 0)
  else if b < 0xF4 then ([], .inside 2 0x80 0xBF (b - 0xF0))
  else if b = 0xF4 then ([], .inside 2 0x80 0x8F 4)
  else ([replacementChar], .between)

def step : State → Nat → List Char × State
  | .between, b => first b
  | .inside more low high bits, b =>
    if low ≤ b ∧ b ≤ high then
      let bits := bits * 64 + (b - 0x80)
      match more with
      | 0 => ([Char.ofNat bits], .between)
      | more + 1 => ([], .inside more 0x80 0xBF bits)
    else
      let (out, state) := first b
      (replacementChar :: out, state)

def run : State → List UInt8 → List Char
  | .between, [] => []
  | .inside .., [] => [replacementChar]
  | state, b :: rest =>
    let (out, state) := step state b.toNat
    out ++ run state rest

def decode (bytes : List UInt8) : List Char := run .between bytes

def encode (text : List Char) : List UInt8 := text.flatMap String.utf8EncodeChar

end Utf8
end MessageCatalog.Charset
