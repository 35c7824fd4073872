import Jubilee.Common.ByteBuf
/-!
# What the program takes from Java and JRuby

Java strings, the exceptions the modelled code can meet, and the two
numeric conversions it relies on: `Integer.parseInt`, which reads a
header, and `RubyNumeric.num2int`, which narrows a Ruby argument to a
Java `int`.
-/

namespace Jubilee

/-- A Java string, as its characters. Only text that came from a decoder
or from a literal occurs, so no unpaired surrogate does. -/
abbrev JString := List Char

/-- What the modelled code may throw. -/
inductive Raised
  | illegalArgument
  | indexOutOfBounds
  | negativeArraySize
  | numberFormat
  | rangeError
  | typeError
  /-- Any other exception, of Java's or of Ruby's. -/
  | other (native : Bool)
  deriving DecidableEq, Repr

/-- The exception is one of Java's, which Ruby sees as a
`NativeException`. -/
def Raised.isNative : Raised → Bool
  | .illegalArgument | .indexOutOfBounds | .negativeArraySize | .numberFormat => true
  | .rangeError | .typeError => false
  | .other native => native

/-- The exception Netty throws for a fault of the buffer. -/
def Raised.ofFault : ByteBuf.Fault → Raised
  | .illegalArgument => .illegalArgument
  | .indexOutOfBounds => .indexOutOfBounds

/-- `Integer.MAX_VALUE`. -/
def maxInt : ℤ := 2147483647

/-- `Integer.MIN_VALUE`. -/
def minInt : ℤ := -2147483648

/-! ## `Integer.parseInt` -/

/-- The value of a decimal digit. Header text holds no character above
`0xFF`, where these ten are all the digits Java knows. -/
def digit? (c : Char) : Option ℕ :=
  if '0' ≤ c ∧ c ≤ '9' then some (c.toNat - '0'.toNat) else none

/-- The number a string of digits denotes, read on after `acc`. -/
def digitsFrom? (acc : ℕ) : JString → Option ℕ
  | [] => some acc
  | c :: cs => (digit? c).bind fun d => digitsFrom? (10 * acc + d) cs

/-- The number a nonempty string of digits denotes. -/
def digits? : JString → Option ℕ
  | [] => none
  | cs => digitsFrom? 0 cs

/-- `Integer.parseInt`: an optional sign, then digits, and a value that
is an `int`. -/
def parseInt (s : JString) : Except Raised ℤ :=
  let value : Option ℤ :=
    match s with
    | '-' :: cs => (digits? cs).map fun n => -(n : ℤ)
    | '+' :: cs => (digits? cs).map fun n => (n : ℤ)
    | cs => (digits? cs).map fun n => (n : ℤ)
  match value with
  | some n => if minInt ≤ n ∧ n ≤ maxInt then .ok n else .error .numberFormat
  | none => .error .numberFormat

/-- A text of decimal digits, which may be empty. -/
def Decimal (cs : JString) : Prop := ∀ c ∈ cs, '0' ≤ c ∧ c ≤ '9'

instance (cs : JString) : Decidable (Decimal cs) :=
  List.decidableBAll (fun c => '0' ≤ c ∧ c ≤ '9') cs

/-- Digits denote the number that Lean reads off them. -/
theorem digitsFrom?_of_decimal {cs : JString} (h : Decimal cs) (acc : ℕ) :
    digitsFrom? acc cs = some (Nat.ofDigitChars 10 cs acc) := by
  induction cs generalizing acc with
  | nil => rw [digitsFrom?, Nat.ofDigitChars_nil]
  | cons c cs ih =>
    obtain ⟨hc, hcs⟩ := List.forall_mem_cons.mp h
    rw [digitsFrom?, digit?, if_pos hc, Option.bind_some, ih hcs, Nat.ofDigitChars_cons]

theorem digits?_of_decimal {cs : JString} (h : Decimal cs) (hne : cs ≠ []) :
    digits? cs = some (Nat.ofDigitChars 10 cs 0) := by
  cases cs with
  | nil => exact absurd rfl hne
  | cons c cs => exact digitsFrom?_of_decimal h 0

theorem decimal_toString (n : ℕ) : Decimal (toString n).toList := by
  rw [Nat.toString_eq_repr, Nat.toList_repr]
  intro c hc
  have hdigit := Nat.isDigit_of_mem_toDigits (by decide) (by decide) hc
  simp only [Char.isDigit, Bool.and_eq_true, decide_eq_true_eq] at hdigit
  exact hdigit

theorem toString_ne_nil (n : ℕ) : (toString n).toList ≠ [] := by
  rw [Nat.toString_eq_repr, Nat.toList_repr]
  exact Nat.toDigits_ne_nil

/-- **A number is what its text denotes.** -/
theorem digits?_toString (n : ℕ) : digits? (toString n).toList = some n := by
  rw [digits?_of_decimal (decimal_toString n) (toString_ne_nil n), Nat.toString_eq_repr,
    Nat.toList_repr, Nat.ofDigitChars_ten_toDigits]

/-- `parseInt` takes digits for the number they denote, if that is an
`int`. -/
theorem parseInt_of_decimal {cs : JString} (h : Decimal cs) {n : ℕ} (hn : digits? cs = some n) :
    parseInt cs = if (n : ℤ) ≤ maxInt then .ok (n : ℤ) else .error .numberFormat := by
  have hmin : minInt ≤ (n : ℤ) := by unfold minInt; omega
  have hminus : ∀ cs', cs ≠ '-' :: cs' := by
    rintro cs' rfl
    exact absurd (List.forall_mem_cons.mp h).1 (by decide)
  have hplus : ∀ cs', cs ≠ '+' :: cs' := by
    rintro cs' rfl
    exact absurd (List.forall_mem_cons.mp h).1 (by decide)
  unfold parseInt
  split
  next cs' => exact absurd rfl (hminus cs')
  next cs' => exact absurd rfl (hplus cs')
  next =>
    rw [hn]
    change (if minInt ≤ (n : ℤ) ∧ (n : ℤ) ≤ maxInt then _ else _) = _
    simp only [hmin, true_and]

example : parseInt "42".toList = .ok 42 := rfl
example : parseInt "2147483648".toList = .error .numberFormat := rfl

/-! ## `RubyNumeric.num2int` -/

/-- An argument in an integer's place: an integer, or `nil`. -/
inductive IntArg
  | nil
  | int (n : ℤ)
  deriving DecidableEq, Repr

/-- `RubyNumeric.num2int`: a `TypeError` for `nil`, a `RangeError` for an
integer that is no Java `int`. -/
def num2int : IntArg → Except Raised ℤ
  | .nil => .error .typeError
  | .int n => if minInt ≤ n ∧ n ≤ maxInt then .ok n else .error .rangeError

theorem num2int_int {n : ℕ} (h : (n : ℤ) ≤ maxInt) : num2int (.int n) = .ok n := by
  have hmin : minInt ≤ (n : ℤ) := by unfold minInt; omega
  rw [num2int, if_pos ⟨hmin, h⟩]

theorem num2int_int_of_gt {n : ℕ} (h : maxInt < (n : ℤ)) :
    num2int (.int n) = .error .rangeError := by
  rw [num2int, if_neg (by omega)]

end Jubilee
