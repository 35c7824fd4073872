import Jubilee.Common.Utf8
import Jubilee.Runtime.Java
/-!
# What the program takes from Ruby

Ruby strings are bytes with an encoding. A hash compares two strings by
`eql?`: the bytes, and the encodings too where a byte is not ASCII, so a
key is a string in the form in which that comparison is equality. The
conversions are those of `RubyHelper`.
-/

namespace Jubilee

/-! ## Strings -/

/-- The encodings the program names, and the others by a number. -/
inductive Encoding
  | usAscii
  | utf8
  | ascii8bit
  | other (index : ℕ)
  deriving DecidableEq

/-- A Ruby string. -/
structure RubyString where
  bytes : Bytes
  encoding : Encoding
  deriving DecidableEq

/-- Every byte is ASCII. -/
def isAscii (bytes : Bytes) : Bool := bytes.all (· < 128)

/-- A string as `eql?` sees it: where every byte is ASCII the encoding
does not count. -/
structure StringKey extends RubyString where
  encoding_of_ascii : isAscii bytes = true → encoding = .usAscii
  deriving DecidableEq

/-- A string in a hash key's place. -/
def RubyString.toKey (s : RubyString) : StringKey :=
  if h : isAscii s.bytes = true then ⟨⟨s.bytes, .usAscii⟩, fun _ => rfl⟩
  else ⟨s, fun h' => absurd h' h⟩

@[simp] theorem bytes_toKey (s : RubyString) : s.toKey.bytes = s.bytes := by
  unfold RubyString.toKey
  split <;> rfl

/-- The cast of a `char` to a `byte`. The strings it is applied to hold no
character beyond `U+FFFF`. -/
def charToByte (c : Char) : UInt8 := UInt8.ofNat c.toNat

namespace RubyHelper

/-- `toUsAsciiRubyString`, from bytes. -/
def toUsAsciiRubyString (bytes : Bytes) : RubyString := ⟨bytes, .usAscii⟩

/-- `toUsAsciiRubyString`, from a string. -/
def toUsAsciiRubyString' (string : JString) : RubyString :=
  toUsAsciiRubyString (string.map charToByte)

/-- `toUnicodeRubyString`. -/
def toUnicodeRubyString (string : JString) : RubyString := ⟨encodeUtf8 string, .utf8⟩

end RubyHelper

/-! ## Objects -/

/-- A Ruby object: a string, or one of the objects the model does not look
into. -/
inductive RubyObject (O : Type*)
  | string (s : RubyString)
  | other (o : O)
  deriving DecidableEq

/-- A Ruby object in a hash key's place. -/
inductive RubyKey (O : Type*)
  | string (s : StringKey)
  | other (o : O)
  deriving DecidableEq

/-- `Ruby`: the objects `nil`, `false` and `true`. -/
structure Ruby (O : Type*) where
  getNil : O
  getFalse : O
  getTrue : O

namespace Ruby

variable {O : Type*} (runtime : Ruby O)

/-- `newBoolean`. -/
def newBoolean (value : Bool) : O := if value then runtime.getTrue else runtime.getFalse

/-- `isTrue`: every object but `nil` and `false` is. -/
def isTrue [DecidableEq O] : RubyObject O → Bool
  | .string _ => true
  | .other o => o ≠ runtime.getNil ∧ o ≠ runtime.getFalse

end Ruby

end Jubilee
