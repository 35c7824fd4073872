import Mathlib.Data.List.DropRight
import Mathlib.Data.List.Infix
import Mathlib.Tactic.Common
import Jubilee.Common.Fallible
import Jubilee.Runtime.Java
/-!
# Start-up — addresses

`expand_addr` makes a host and a port of the address that `listen` and
`clustering` are given: a port alone, a numeric address or a name with a
port, or anything that ends in `:*`. `expand_addr_iff` says for which
addresses the host has no port in it, the port is a number, and what they
print as expands to them again.
-/

namespace Jubilee

namespace Startup

/-! ## Ruby values -/

/-- A value of an option. Arrays, hashes and other objects are not looked
into, and none of them is a symbol. -/
inductive Value
  | nil
  | bool (b : Bool)
  | int (n : ℤ)
  | string (s : JString)
  | object (id : ℕ)
  deriving DecidableEq

/-- `ArgumentError`. -/
def argumentError : Raised := .other false

/-- Digits are read on after `acc`. An underscore may stand between two. -/
def readDigits (acc : ℕ) : JString → ℕ
  | '_' :: c :: cs =>
    match digit? c with
    | some d => readDigits (10 * acc + d) cs
    | none => acc
  | c :: cs =>
    match digit? c with
    | some d => readDigits (10 * acc + d) cs
    | none => acc
  | [] => acc

/-- The number a string starts with, which may be written `0d`. -/
def leadingNat : JString → ℕ
  | '0' :: 'd' :: cs | '0' :: 'D' :: cs => if cs.head? = some '_' then 0 else readDigits 0 cs
  | cs => if cs.head? = some '_' then 0 else readDigits 0 cs

/-- `String#to_i`. -/
def toI (s : JString) : ℤ :=
  match s.dropWhile fun c => c = ' ' || ('\t' ≤ c && c ≤ '\r') with
  | '-' :: cs => -(leadingNat cs : ℤ)
  | '+' :: cs => leadingNat cs
  | cs => leadingNat cs

/-! ## The patterns -/

/-- `\d+`. -/
def IsPort (digits : JString) : Prop := digits ≠ [] ∧ Decimal digits

instance (digits : JString) : Decidable (IsPort digits) := inferInstanceAs (Decidable (_ ∧ _))

/-- `[a-fA-F0-9:]`. -/
def isIPv6Char (c : Char) : Bool :=
  ('a' ≤ c && c ≤ 'f') || ('A' ≤ c && c ≤ 'F') || c.isDigit || c = ':'

/-- `\A(?:\*:)?(\d+)\z`. -/
def barePort (addr : JString) : Option JString :=
  let digits :=
    match addr with
    | '*' :: ':' :: cs => cs
    | cs => cs
  if IsPort digits then some digits else none

/-- `\A\[([a-fA-F0-9:]+)\]:(\d+)\z`. -/
def bracketed : JString → Option (JString × JString)
  | '[' :: cs =>
    let inner := cs.takeWhile isIPv6Char
    match cs.dropWhile isIPv6Char with
    | ']' :: ':' :: digits =>
      if inner ≠ [] ∧ IsPort digits then some (inner, digits) else none
    | _ => none
  | _ => none

/-- `\A(.*):(\d+)\z`. The digits are all there are at the end, and `.` is no
line feed. -/
def hostPort (addr : JString) : Option (JString × JString) :=
  let digits := addr.rtakeWhile Char.isDigit
  match (addr.rdropWhile Char.isDigit).reverse with
  | ':' :: cs => if digits ≠ [] ∧ '\n' ∉ cs then some (cs.reverse, digits) else none
  | _ => none

/-- `\A?:\*\z`. The anchor may be left out, so this is any string that ends
in `:*`. -/
def wildcard (addr : JString) : Bool := [':', '*'] <:+ addr

/-! ## `expand_addr` -/

/-- Ruby's `Socket`, as far as addresses are packed by it. -/
structure Socket where
  Sockaddr : Type
  packSockaddrIn : ℤ → JString → Except Raised Sockaddr
  unpackSockaddrIn : Sockaddr → Except Raised (ℤ × JString)

/-- A numeric address as a host is written. -/
def hostText (addr : JString) : JString := if ':' ∈ addr then '[' :: addr ++ [']'] else addr

/-- `canonicalize_tcp`. -/
def canonicalizeTcp (socket : Socket) (addr : JString) (port : ℤ) :
    Except Raised (JString × Value) := do
  let packed ← socket.packSockaddrIn port addr
  let (port, addr) ← socket.unpackSockaddrIn packed
  pure (hostText addr, .int port)

/-- `expand_addr`. -/
def expandAddr (socket : Socket) : Value → Except Raised (JString × Value)
  | .int n =>
    -- a `Fixnum` has 64 bits
    if -9223372036854775808 ≤ n ∧ n ≤ 9223372036854775807 then .ok ("0.0.0.0".toList, .int n)
    else .error argumentError
  | .string addr =>
    match barePort addr with
    | some port => .ok ("0.0.0.0".toList, .string port)
    | none =>
      match (bracketed addr).or (hostPort addr) with
      | some (host, port) => canonicalizeTcp socket host (toI port)
      | none => if wildcard addr then .ok (addr, .nil) else .error argumentError
  | _ => .error argumentError

/-! ## What is asked of the result -/

/-- The host has no port at its end. -/
def NoPort (host : JString) : Prop :=
  ¬ ∃ name port, host = name ++ ':' :: port ∧ (port = ['*'] ∨ IsPort port)

/-- The host has no port in it, and the port is an Integer or `nil`. -/
def WellTyped (host : JString) (port : Value) : Prop :=
  NoPort host ∧ (port = .nil ∨ ∃ n, port = .int n)

/-- A port as it is printed, if there is one. -/
def portText : Value → Option JString
  | .int n => some (toString n).toList
  | .string s => some s
  | _ => none

/-- Printed as `host:port` and expanded again, the result is the same. -/
def Stable (socket : Socket) (host : JString) (port : Value) : Prop :=
  ∀ text, portText port = some text →
    expandAddr socket (.string (host ++ ':' :: text)) = .ok (host, port)

/-- A port alone, or after `*:`. -/
def BarePort (addr : JString) : Prop :=
  ∃ digits, IsPort digits ∧ (addr = digits ∨ addr = '*' :: ':' :: digits)

/-- The addresses that expand well: a TCP port, and strings that are no port
alone and do not end in `:*`. -/
def Plain : Value → Prop
  | .int n => 0 ≤ n ∧ n ≤ 65535
  | .string addr => ¬ BarePort addr ∧ ¬ [':', '*'] <:+ addr
  | _ => False

/-! ## What `Socket` is relied on for -/

/-- A numeric address: of version 4, or of version 6. -/
def Numeric (addr : JString) : Prop :=
  addr.all (fun c => c.isDigit || c = '.') = true ∨ ':' ∈ addr ∧ addr.all isIPv6Char = true

instance (addr : JString) : Decidable (Numeric addr) := inferInstanceAs (Decidable (_ ∨ _))

/-- What is unpacked is a numeric address with a port, and packed and
unpacked again it stays the same, with any port. `0.0.0.0` is one. -/
structure Socket.Lawful (socket : Socket) : Prop where
  numeric : ∀ {packed port addr}, socket.unpackSockaddrIn packed = .ok (port, addr) →
    Numeric addr ∧ 0 ≤ port ∧ port ≤ 65535
  inverse : ∀ {packed port addr}, socket.unpackSockaddrIn packed = .ok (port, addr) →
    ∀ port', 0 ≤ port' → port' ≤ 65535 → ∃ packed',
      socket.packSockaddrIn port' addr = .ok packed' ∧
        socket.unpackSockaddrIn packed' = .ok (port', addr)
  any : ∃ packed port, socket.unpackSockaddrIn packed = .ok (port, "0.0.0.0".toList)

/-- A port is unpacked as it was packed. -/
def Socket.KeepsPort (socket : Socket) : Prop :=
  ∀ {packed port host port' addr}, socket.packSockaddrIn port host = .ok packed →
    socket.unpackSockaddrIn packed = .ok (port', addr) → 0 ≤ port → port ≤ 65535 → port' = port

/-! ## What the patterns match -/

variable {addr host digits rest : JString} {c : Char}

theorem IsPort.mem (h : IsPort digits) (hc : c ∈ digits) : '0' ≤ c ∧ c ≤ '9' := h.2 c hc

theorem IsPort.notMem (h : IsPort digits) (hc : ¬ ('0' ≤ c ∧ c ≤ '9')) : c ∉ digits :=
  fun hmem => hc (h.mem hmem)

theorem IsPort.isDigit (h : IsPort digits) (hc : c ∈ digits) : c.isDigit = true := by
  obtain ⟨hle, hge⟩ := h.mem hc
  simp only [Char.isDigit, Bool.and_eq_true, decide_eq_true_eq]
  exact ⟨hle, hge⟩

theorem barePort_eq_some_iff : barePort addr = some digits ↔
    IsPort digits ∧ (addr = digits ∨ addr = '*' :: ':' :: digits) := by
  unfold barePort
  split
  next cs =>
    -- `*` is no digit
    have hstar : ∀ {ds : JString}, IsPort ds → '*' :: ':' :: cs ≠ ds := by
      rintro ds hds rfl
      exact hds.notMem (by decide) List.mem_cons_self
    rw [Option.ite_none_right_eq_some]
    constructor
    · rintro ⟨hport, heq⟩
      obtain rfl := Option.some.inj heq
      exact ⟨hport, Or.inr rfl⟩
    · rintro ⟨hport, heq | heq⟩
      · exact absurd heq (hstar hport)
      · obtain rfl := (List.cons.inj (List.cons.inj heq).2).2
        exact ⟨hport, rfl⟩
  next hne =>
    rw [Option.ite_none_right_eq_some]
    constructor
    · rintro ⟨hport, heq⟩
      obtain rfl := Option.some.inj heq
      exact ⟨hport, Or.inl rfl⟩
    · rintro ⟨hport, rfl | rfl⟩
      · exact ⟨hport, rfl⟩
      · exact absurd rfl (hne digits)

theorem barePort_eq_none_iff : barePort addr = none ↔ ¬ BarePort addr := by
  rw [Option.eq_none_iff_forall_ne_some, BarePort, not_exists]
  exact forall_congr' fun digits => not_congr barePort_eq_some_iff

theorem bracketed_eq_some_iff : bracketed addr = some (host, digits) ↔
    addr = '[' :: host ++ ']' :: ':' :: digits ∧ host ≠ [] ∧ host.all isIPv6Char = true ∧
      IsPort digits := by
  constructor
  · intro h
    unfold bracketed at h
    split at h
    next cs =>
      dsimp only at h
      split at h
      next digits' hdrop =>
        obtain ⟨⟨hne, hport⟩, heq⟩ := Option.ite_none_right_eq_some.mp h
        obtain ⟨rfl, rfl⟩ := Prod.mk.inj (Option.some.inj heq)
        refine ⟨?_, hne, List.all_eq_true.mpr fun c hc => List.mem_takeWhile_imp hc, hport⟩
        rw [List.cons_append, ← hdrop, List.takeWhile_append_dropWhile]
      next => cases h
    next => cases h
  · rintro ⟨rfl, hne, hall, hport⟩
    have hall := List.all_eq_true.mp hall
    have htake : (host ++ ']' :: ':' :: digits).takeWhile isIPv6Char = host := by
      rw [List.takeWhile_append_of_pos hall, List.takeWhile_cons_of_neg (by decide),
        List.append_nil]
    have hdrop : (host ++ ']' :: ':' :: digits).dropWhile isIPv6Char = ']' :: ':' :: digits := by
      rw [List.dropWhile_append_of_pos hall, List.dropWhile_cons_of_neg (by decide)]
    simp only [List.cons_append, bracketed, htake, hdrop]
    exact if_pos ⟨hne, hport⟩

theorem hostPort_eq_some_iff : hostPort addr = some (host, digits) ↔
    addr = host ++ ':' :: digits ∧ '\n' ∉ host ∧ IsPort digits := by
  constructor
  · intro h
    unfold hostPort at h
    dsimp only at h
    split at h
    next cs hcs =>
      obtain ⟨⟨hne, hline⟩, heq⟩ := Option.ite_none_right_eq_some.mp h
      obtain ⟨rfl, rfl⟩ := Prod.mk.inj (Option.some.inj heq)
      refine ⟨?_, fun hmem => hline (List.mem_reverse.mp hmem), hne, fun c hc => ?_⟩
      · have hhost : addr.rdropWhile Char.isDigit = cs.reverse ++ [':'] := by
          rw [← List.reverse_reverse (addr.rdropWhile _), hcs, List.reverse_cons]
        have hsplit : addr.rdropWhile Char.isDigit ++ addr.rtakeWhile Char.isDigit = addr :=
          List.rdropWhile_append_rtakeWhile
        rw [hhost, List.append_assoc] at hsplit
        exact hsplit.symm
      · have hdigit := List.mem_rtakeWhile_imp hc
        simp only [Char.isDigit, Bool.and_eq_true, decide_eq_true_eq] at hdigit
        exact hdigit
    next => cases h
  · rintro ⟨rfl, hline, hport⟩
    have hdigits : ∀ c ∈ digits.reverse, c.isDigit = true := fun c hc =>
      hport.isDigit (List.mem_reverse.mp hc)
    have htake : (host ++ ':' :: digits).rtakeWhile Char.isDigit = digits := by
      rw [List.rtakeWhile, List.reverse_append, List.reverse_cons, List.append_assoc,
        List.takeWhile_append_of_pos hdigits, List.singleton_append,
        List.takeWhile_cons_of_neg (by decide), List.append_nil, List.reverse_reverse]
    have hdrop : ((host ++ ':' :: digits).rdropWhile Char.isDigit).reverse =
        ':' :: host.reverse := by
      rw [List.rdropWhile, List.reverse_append, List.reverse_cons, List.append_assoc,
        List.dropWhile_append_of_pos hdigits, List.singleton_append,
        List.dropWhile_cons_of_neg (by decide), List.reverse_reverse]
    simp only [hostPort, htake, hdrop]
    rw [if_pos ⟨hport.1, fun hmem => hline (List.mem_reverse.mp hmem)⟩, List.reverse_reverse]

/-! ## A port as a number -/

theorem digit?_eq_some {d : ℕ} (h : digit? c = some d) : '0' ≤ c ∧ c ≤ '9' :=
  (Option.ite_none_right_eq_some.mp h).1

theorem readDigits_of_digitsFrom? {acc n : ℕ} (h : digitsFrom? acc digits = some n) :
    readDigits acc digits = n := by
  induction digits generalizing acc with
  | nil => exact Option.some.inj h
  | cons c cs ih =>
    obtain ⟨d, hd, hcs⟩ := Option.bind_eq_some_iff.mp h
    have hne : c ≠ '_' := by
      rintro rfl
      exact absurd (digit?_eq_some hd) (by decide)
    rw [readDigits, hd]
    · exact ih hcs
    · rintro c' cs' ⟨⟩
      exact absurd rfl hne

theorem IsPort.toI_eq {n : ℕ} (h : IsPort digits) (hn : digits? digits = some n) :
    toI digits = n := by
  obtain ⟨hne, hdecimal⟩ := h
  cases digits with
  | nil => exact absurd rfl hne
  | cons c cs =>
    obtain ⟨hc, hcs⟩ := List.forall_mem_cons.mp hdecimal
    have hfirst : ∀ c', ¬ ('0' ≤ c' ∧ c' ≤ '9') → c ≠ c' := fun c' hc' heq => hc' (heq ▸ hc)
    have hspace : (c :: cs).dropWhile (fun c => c = ' ' || ('\t' ≤ c && c ≤ '\r')) = c :: cs := by
      refine List.dropWhile_cons_of_neg fun hspace => ?_
      simp only [Bool.or_eq_true, Bool.and_eq_true, decide_eq_true_eq] at hspace
      rcases hspace with rfl | ⟨-, hle⟩
      · exact hfirst ' ' (by decide) rfl
      · exact absurd (Char.le_trans hc.1 hle) (by decide)
    have hleading : leadingNat (c :: cs) = n := by
      unfold leadingNat
      split
      next cs' heq =>
        obtain ⟨-, rfl⟩ := List.cons.inj heq
        exact absurd (hcs 'd' List.mem_cons_self) (by decide)
      next cs' heq =>
        obtain ⟨-, rfl⟩ := List.cons.inj heq
        exact absurd (hcs 'D' List.mem_cons_self) (by decide)
      next =>
        rw [if_neg (by simpa using hfirst '_' (by decide))]
        exact readDigits_of_digitsFrom? hn
    unfold toI
    rw [hspace]
    split
    next cs' heq => exact absurd (List.cons.inj heq).1 (hfirst '-' (by decide))
    next cs' heq => exact absurd (List.cons.inj heq).1 (hfirst '+' (by decide))
    next => rw [hleading]

/-- The text of a number is a port, and that number. -/
theorem isPort_toString (n : ℕ) : IsPort (toString n).toList :=
  ⟨toString_ne_nil n, decimal_toString n⟩

theorem toI_toString (n : ℕ) : toI (toString n).toList = n :=
  (isPort_toString n).toI_eq (digits?_toString n)

/-! ## What an address expands to -/

variable {socket : Socket} {port : Value}

theorem canonicalizeTcp_eq_ok {n : ℤ} : canonicalizeTcp socket addr n = .ok (host, port) ↔
    ∃ packed n' addr', socket.packSockaddrIn n addr = .ok packed ∧
      socket.unpackSockaddrIn packed = .ok (n', addr') ∧ hostText addr' = host ∧
        .int n' = port := by
  constructor
  · intro h
    obtain ⟨packed, hpack, h⟩ := Fallible.bind_eq_ok.mp h
    obtain ⟨⟨n', addr'⟩, hunpack, h⟩ := Fallible.bind_eq_ok.mp h
    obtain ⟨hhost, hport⟩ := Prod.mk.inj (Fallible.pure_eq_ok.mp h)
    exact ⟨packed, n', addr', hpack, hunpack, hhost, hport⟩
  · rintro ⟨packed, n', addr', hpack, hunpack, rfl, rfl⟩
    exact Fallible.bind_eq_ok.mpr
      ⟨packed, hpack, Fallible.bind_eq_ok.mpr ⟨(n', addr'), hunpack, rfl⟩⟩

/-- What ends in a character has it in every end of its own. -/
theorem mem_of_suffixes {text tail : JString} (h : [c] <:+ text) (htail : tail <:+ text)
    (hne : tail ≠ []) : c ∈ tail :=
  (List.suffix_of_suffix_length_le h htail (List.length_pos_iff.mpr hne)).subset
    List.mem_cons_self

/-- A string with a port does not end in `:*`. -/
theorem not_wildcard (h : IsPort digits) : ¬ [':', '*'] <:+ host ++ ':' :: digits := by
  intro hstar
  have htail : digits <:+ host ++ ':' :: digits := ⟨host ++ [':'], by simp⟩
  exact h.notMem (by decide) (mem_of_suffixes ((List.suffix_cons _ _).trans hstar) htail h.1)

theorem expandAddr_of_barePort (h : barePort addr = some digits) :
    expandAddr socket (.string addr) = .ok ("0.0.0.0".toList, .string digits) := by
  simp only [expandAddr, h]

theorem expandAddr_of_port (h : barePort addr = none)
    (h' : (bracketed addr).or (hostPort addr) = some (host, digits)) :
    expandAddr socket (.string addr) = canonicalizeTcp socket host (toI digits) := by
  simp only [expandAddr, h, h']

theorem expandAddr_of_noPort (h : barePort addr = none)
    (h' : (bracketed addr).or (hostPort addr) = none) :
    expandAddr socket (.string addr) =
      if wildcard addr then .ok (addr, .nil) else .error argumentError := by
  simp only [expandAddr, h, h']

/-- **A string expands in one of three ways.** -/
theorem expandAddr_cases (h : expandAddr socket (.string addr) = .ok (host, port)) :
    (BarePort addr ∧ ∃ digits, port = .string digits) ∨
    (¬ BarePort addr ∧ ¬ [':', '*'] <:+ addr ∧ ∃ packed n addr',
      socket.unpackSockaddrIn packed = .ok (n, addr') ∧ host = hostText addr' ∧ port = .int n) ∨
    ([':', '*'] <:+ addr ∧ host = addr ∧ port = .nil) := by
  -- the patterns are tried in this order
  cases hbare : barePort addr with
  | some digits =>
    rw [expandAddr_of_barePort hbare] at h
    obtain ⟨-, rfl⟩ := Prod.mk.inj (Except.ok.inj h)
    exact Or.inl ⟨⟨digits, barePort_eq_some_iff.mp hbare⟩, digits, rfl⟩
  | none =>
    rcases hmatch : (bracketed addr).or (hostPort addr) with _ | ⟨name, digits⟩
    · rw [expandAddr_of_noPort hbare hmatch] at h
      split at h
      next hwild =>
        obtain ⟨rfl, rfl⟩ := Prod.mk.inj (Except.ok.inj h)
        exact Or.inr (Or.inr ⟨of_decide_eq_true hwild, rfl, rfl⟩)
      next => cases h
    · rw [expandAddr_of_port hbare hmatch] at h
      obtain ⟨packed, n, addr', -, hunpack, hhost, hport⟩ := canonicalizeTcp_eq_ok.mp h
      refine Or.inr (Or.inl ⟨barePort_eq_none_iff.mp hbare, ?_, packed, n, addr', hunpack,
        hhost.symm, hport.symm⟩)
      rcases Option.or_eq_some_iff.mp hmatch with hbracketed | ⟨-, hhostPort⟩
      · obtain ⟨rfl, -, -, hdigits⟩ := bracketed_eq_some_iff.mp hbracketed
        have hassoc : '[' :: name ++ ']' :: ':' :: digits =
            ('[' :: name ++ [']']) ++ ':' :: digits := by simp
        rw [hassoc]
        exact not_wildcard hdigits
      · obtain ⟨rfl, -, hdigits⟩ := hostPort_eq_some_iff.mp hhostPort
        exact not_wildcard hdigits

/-- Digits denote some number. -/
theorem IsPort.toI_nonneg (h : IsPort digits) : 0 ≤ toI digits := by
  rw [h.toI_eq (digits?_of_decimal h.2 h.1)]
  exact Int.natCast_nonneg _

/-- The port of a text is known: its digits have no colon. -/
theorem append_port_inj {host' digits' : JString} (h : IsPort digits) (h' : IsPort digits')
    (heq : host ++ ':' :: digits = host' ++ ':' :: digits') : host = host' ∧ digits = digits' := by
  rcases List.append_eq_append_iff.mp heq with ⟨between, rfl, htail⟩ | ⟨between, rfl, htail⟩
  · cases between with
    | nil => exact ⟨(List.append_nil host).symm, (List.cons.inj htail).2⟩
    | cons c cs =>
      have hcolon : ':' ∈ digits :=
        (List.cons.inj htail).2 ▸ List.mem_append_right _ List.mem_cons_self
      exact absurd hcolon (h.notMem (by decide))
  · cases between with
    | nil => exact ⟨List.append_nil host', (List.cons.inj htail).2.symm⟩
    | cons c cs =>
      have hcolon : ':' ∈ digits' :=
        (List.cons.inj htail).2 ▸ List.mem_append_right _ List.mem_cons_self
      exact absurd hcolon (h'.notMem (by decide))

/-- **A port that is written out is the port that is read**, as digits or
as the number they denote. -/
theorem port_of_expandAddr (hsocket : socket.KeepsPort) (hdigits : IsPort digits)
    (hle : toI digits ≤ 65535) {name : JString}
    (h : expandAddr socket (.string (name ++ ':' :: digits)) = .ok (host, port)) :
    port = .string digits ∨ port = .int (toI digits) := by
  cases hbare : barePort (name ++ ':' :: digits) with
  | some digits' =>
    rw [expandAddr_of_barePort hbare] at h
    obtain ⟨-, rfl⟩ := Prod.mk.inj (Except.ok.inj h)
    obtain ⟨hdigits', heq | heq⟩ := barePort_eq_some_iff.mp hbare
    · -- a port alone has no colon
      have hcolon : ':' ∈ digits' := heq ▸ List.mem_append_right _ List.mem_cons_self
      exact absurd hcolon (hdigits'.notMem (by decide))
    · have hstar : name ++ ':' :: digits = ['*'] ++ ':' :: digits' := heq
      obtain ⟨-, rfl⟩ := append_port_inj hdigits hdigits' hstar
      exact Or.inl rfl
  | none =>
    rcases hmatch : (bracketed (name ++ ':' :: digits)).or (hostPort (name ++ ':' :: digits)) with
      _ | ⟨name', digits'⟩
    · rw [expandAddr_of_noPort hbare hmatch, wildcard, if_neg (by simpa using not_wildcard hdigits)]
        at h
      cases h
    · -- whichever pattern matched, its digits are those at the end
      have hdigits' : digits' = digits := by
        rcases Option.or_eq_some_iff.mp hmatch with hbracketed | ⟨-, hhostPort⟩
        · obtain ⟨heq, -, -, hdigits'⟩ := bracketed_eq_some_iff.mp hbracketed
          have heq' : name ++ ':' :: digits = ('[' :: name' ++ [']']) ++ ':' :: digits' := by
            rw [heq]
            simp
          exact (append_port_inj hdigits hdigits' heq').2.symm
        · obtain ⟨heq, -, hdigits'⟩ := hostPort_eq_some_iff.mp hhostPort
          exact (append_port_inj hdigits hdigits' heq).2.symm
      rw [expandAddr_of_port hbare hmatch, hdigits'] at h
      obtain ⟨packed, n, addr', hpack, hunpack, -, rfl⟩ := canonicalizeTcp_eq_ok.mp h
      rw [hsocket hpack hunpack hdigits.toI_nonneg hle]
      exact Or.inr rfl

/-! ## Numeric addresses -/

/-- A numeric address with a colon is one of version 6. -/
theorem Numeric.of_mem (h : Numeric addr) (hcolon : ':' ∈ addr) :
    addr.all isIPv6Char = true := by
  rcases h with h | ⟨-, h⟩
  · exact absurd (List.all_eq_true.mp h ':' hcolon) (by decide)
  · exact h

/-- Without one it has digits and dots only. -/
theorem Numeric.of_notMem (h : Numeric addr) (hcolon : ':' ∉ addr) (hc : c ∈ addr) :
    (c.isDigit || c = '.') = true := by
  rcases h with h | ⟨h, -⟩
  · exact List.all_eq_true.mp h c hc
  · exact absurd h hcolon

/-- And starts with no other character. -/
theorem Numeric.ne_cons (h : Numeric addr) (hcolon : ':' ∉ addr) {c : Char}
    (hc : (c.isDigit || c = '.') = false) (hne : c ≠ ':') {text : JString} :
    addr ++ ':' :: digits ≠ c :: text := by
  intro heq
  cases addr with
  | nil => exact hne (List.cons.inj heq).1.symm
  | cons c' cs =>
    obtain ⟨rfl, -⟩ := List.cons.inj heq
    exact absurd (hc.symm.trans (h.of_notMem hcolon List.mem_cons_self)) (by decide)

theorem noPort_hostText (addr : JString) : NoPort (hostText addr) := by
  rintro ⟨name, digits, heq, hdigits⟩
  by_cases hcolon : ':' ∈ addr
  · -- the last character is the bracket
    rw [hostText, if_pos hcolon] at heq
    have hbracket : [']'] <:+ name ++ ':' :: digits := heq ▸ List.suffix_append _ _
    have htail : digits <:+ name ++ ':' :: digits := ⟨name ++ [':'], by simp⟩
    rcases hdigits with rfl | hdigits
    · exact absurd (mem_of_suffixes hbracket htail (List.cons_ne_nil _ _)) (by decide)
    · exact hdigits.notMem (by decide) (mem_of_suffixes hbracket htail hdigits.1)
  · rw [hostText, if_neg hcolon] at heq
    exact hcolon (heq ▸ List.mem_append_right _ List.mem_cons_self)

/-- The text of a numeric address with a port is no port alone. -/
theorem not_barePort_hostText (h : Numeric addr) :
    ¬ BarePort (hostText addr ++ ':' :: digits) := by
  rintro ⟨digits', hdigits', heq | heq⟩
  · have hmem : ':' ∈ hostText addr ++ ':' :: digits :=
      List.mem_append_right _ List.mem_cons_self
    exact hdigits'.notMem (by decide) (heq ▸ hmem)
  · by_cases hcolon : ':' ∈ addr
    · rw [hostText, if_pos hcolon] at heq
      exact absurd (List.cons.inj heq).1 (by decide)
    · rw [hostText, if_neg hcolon] at heq
      exact h.ne_cons hcolon (by decide) (by decide) heq

/-- It is matched as that address and that port. -/
theorem match_hostText (h : Numeric addr) (hdigits : IsPort digits) :
    (bracketed (hostText addr ++ ':' :: digits)).or (hostPort (hostText addr ++ ':' :: digits)) =
      some (addr, digits) := by
  by_cases hcolon : ':' ∈ addr
  · -- the brackets are those that `canonicalize_tcp` put there
    have hbracketed : bracketed (hostText addr ++ ':' :: digits) = some (addr, digits) :=
      bracketed_eq_some_iff.mpr ⟨by rw [hostText, if_pos hcolon]; simp,
        List.ne_nil_of_mem hcolon, h.of_mem hcolon, hdigits⟩
    rw [hbracketed, Option.some_or]
  · rw [hostText, if_neg hcolon]
    have hbracketed : bracketed (addr ++ ':' :: digits) = none := by
      rw [Option.eq_none_iff_forall_ne_some]
      rintro ⟨host, digits'⟩ hsome
      obtain ⟨heq, -⟩ := bracketed_eq_some_iff.mp hsome
      exact h.ne_cons hcolon (by decide) (by decide) heq
    rw [hbracketed, Option.none_or]
    refine hostPort_eq_some_iff.mpr ⟨rfl, fun hline => ?_, hdigits⟩
    exact absurd (h.of_notMem hcolon hline) (by decide)

/-- **What was unpacked expands to itself**, with any port. -/
theorem expandAddr_hostText (hsocket : socket.Lawful) {packed : socket.Sockaddr} {n : ℤ}
    (hunpack : socket.unpackSockaddrIn packed = .ok (n, addr)) {m : ℕ} (hm : (m : ℤ) ≤ 65535) :
    expandAddr socket (.string (hostText addr ++ ':' :: (toString m).toList)) =
      .ok (hostText addr, .int m) := by
  obtain ⟨hnumeric, -⟩ := hsocket.numeric hunpack
  obtain ⟨packed', hpack', hunpack'⟩ :=
    hsocket.inverse hunpack m (Int.natCast_nonneg m) hm
  rw [expandAddr_of_port (barePort_eq_none_iff.mpr (not_barePort_hostText hnumeric))
    (match_hostText hnumeric (isPort_toString m)), toI_toString]
  exact canonicalizeTcp_eq_ok.mpr ⟨packed', m, addr, hpack', hunpack', rfl, rfl⟩

/-- A host that was unpacked is stable with every TCP port. -/
theorem stable_hostText (hsocket : socket.Lawful) {packed : socket.Sockaddr} {n : ℤ}
    (hunpack : socket.unpackSockaddrIn packed = .ok (n, addr)) {m : ℤ} (hm : 0 ≤ m)
    (hm' : m ≤ 65535) : Stable socket (hostText addr) (.int m) := by
  intro text htext
  obtain ⟨m, rfl⟩ := Int.eq_ofNat_of_zero_le hm
  obtain rfl : (toString m).toList = text := Option.some.inj htext
  exact expandAddr_hostText hsocket hunpack hm'

/-- And with no other. -/
theorem port_of_stable (hsocket : socket.Lawful) {n : ℤ} (h : Stable socket host (.int n)) :
    0 ≤ n ∧ n ≤ 65535 := by
  obtain ⟨-, digits, hport⟩ | ⟨-, -, packed, n', addr', hunpack, -, hport⟩ | ⟨-, -, hport⟩ :=
    expandAddr_cases (h _ rfl)
  · cases hport
  · obtain rfl := Value.int.inj hport
    exact (hsocket.numeric hunpack).2
  · cases hport

/-! ## Exactly the addresses that expand well -/

theorem expandAddr_int {n : ℤ} (h : expandAddr socket (.int n) = .ok (host, port)) :
    host = "0.0.0.0".toList ∧ port = .int n := by
  rw [expandAddr] at h
  split at h
  next =>
    obtain ⟨rfl, rfl⟩ := Prod.mk.inj (Except.ok.inj h)
    exact ⟨rfl, rfl⟩
  next => cases h

/-- **Exactly which addresses expand well**, of those that are accepted. -/
theorem expand_addr_iff (hsocket : socket.Lawful) {addr : Value}
    (hok : expandAddr socket addr = .ok (host, port)) :
    WellTyped host port ∧ Stable socket host port ↔ Plain addr := by
  cases addr with
  | int n =>
    obtain ⟨rfl, rfl⟩ := expandAddr_int hok
    obtain ⟨packed, n', hunpack⟩ := hsocket.any
    have htext : hostText "0.0.0.0".toList = "0.0.0.0".toList := rfl
    have hnoPort : NoPort "0.0.0.0".toList := htext ▸ noPort_hostText "0.0.0.0".toList
    constructor
    · rintro ⟨-, hstable⟩
      exact port_of_stable hsocket hstable
    · rintro ⟨hn, hn'⟩
      exact ⟨⟨hnoPort, Or.inr ⟨n, rfl⟩⟩, htext ▸ stable_hostText hsocket hunpack hn hn'⟩
  | string addr =>
    obtain ⟨hbare, digits, rfl⟩ | ⟨hbare, hwild, packed, n, addr', hunpack, rfl, rfl⟩ |
      ⟨hwild, rfl, rfl⟩ := expandAddr_cases hok
    · -- the port is a string
      refine iff_of_false ?_ fun hplain => hplain.1 hbare
      rintro ⟨⟨-, hport | ⟨n, hport⟩⟩, -⟩
      · cases hport
      · cases hport
    · -- the host is a numeric address
      obtain ⟨-, hn, hn'⟩ := hsocket.numeric hunpack
      exact iff_of_true ⟨⟨noPort_hostText addr', Or.inr ⟨n, rfl⟩⟩,
        stable_hostText hsocket hunpack hn hn'⟩ ⟨hbare, hwild⟩
    · -- the host is the address, `:*` and all
      refine iff_of_false ?_ fun hplain => hplain.2 hwild
      rintro ⟨⟨hnoPort, -⟩, -⟩
      obtain ⟨name, heq⟩ := hwild
      exact hnoPort ⟨name, ['*'], heq.symm, Or.inl rfl⟩
  | nil | bool | object => cases hok

/-- The address a host is packed as: a numeric one, or that of `localhost`. -/
def localAddress? (host : JString) : Option { addr : JString // Numeric addr } :=
  if h : Numeric host then some ⟨host, h⟩
  else if host = "localhost".toList then some ⟨"127.0.0.1".toList, by decide⟩
  else none

/-- A `Socket` that knows no name but `localhost`. -/
def localSocket : Socket where
  Sockaddr := { p : ℤ × JString // Numeric p.2 ∧ 0 ≤ p.1 ∧ p.1 ≤ 65535 }
  packSockaddrIn port host :=
    match localAddress? host with
    | some addr =>
      if h : 0 ≤ port ∧ port ≤ 65535 then .ok ⟨(port, addr.1), addr.2, h⟩
      else .error (.other false)
    | none => .error (.other false)
  unpackSockaddrIn packed := .ok packed.1

theorem localSocket_lawful : localSocket.Lawful where
  numeric {packed port addr} h := by
    have hpacked : packed.1 = (port, addr) := Except.ok.inj h
    simpa [hpacked] using packed.2
  inverse {packed port addr} h port' hle hge := by
    have hpacked : packed.1 = (port, addr) := Except.ok.inj h
    have haddr : Numeric addr := by simpa [hpacked] using packed.2.1
    refine ⟨⟨(port', addr), haddr, hle, hge⟩, ?_, rfl⟩
    simp only [localSocket, localAddress?, dif_pos haddr]
    exact dif_pos ⟨hle, hge⟩
  any := ⟨⟨(0, "0.0.0.0".toList), by decide⟩, 0, rfl⟩

theorem localSocket_keepsPort : localSocket.KeepsPort := by
  intro packed port host port' addr hpack hunpack _ _
  have hpacked : packed.1 = (port', addr) := Except.ok.inj hunpack
  unfold localSocket at hpack
  dsimp only at hpack
  split at hpack
  next =>
    split at hpack
    next =>
      obtain rfl := Except.ok.inj hpack
      exact (Prod.mk.inj hpacked).1.symm
    next => cases hpack
  next => cases hpack

theorem expand_addr_iff_loopback :
    expandAddr localSocket (.string "127.0.0.1:3000".toList) =
        .ok ("127.0.0.1".toList, .int 3000) ∧
      (WellTyped "127.0.0.1".toList (.int 3000) ∧
          Stable localSocket "127.0.0.1".toList (.int 3000) ↔
        Plain (.string "127.0.0.1:3000".toList)) :=
  ⟨rfl, expand_addr_iff localSocket_lawful rfl⟩

/-- A port alone stays a string, an address that ends in `:*` is its own
host, and an Integer is not looked at. -/
theorem expandAddr_astray :
    (expandAddr localSocket (.string "5701".toList) =
        .ok ("0.0.0.0".toList, .string "5701".toList) ∧
      ¬ WellTyped "0.0.0.0".toList (.string "5701".toList)) ∧
    (expandAddr localSocket (.string "127.0.0.1:*".toList) =
        .ok ("127.0.0.1:*".toList, .nil) ∧
      ¬ WellTyped "127.0.0.1:*".toList .nil) ∧
    (expandAddr localSocket (.int 65536) = .ok ("0.0.0.0".toList, .int 65536) ∧
      ¬ Stable localSocket "0.0.0.0".toList (.int 65536)) := by
  refine ⟨⟨rfl, ?_⟩, ⟨rfl, ?_⟩, rfl, fun hstable => ?_⟩
  · rintro ⟨-, hport | ⟨n, hport⟩⟩
    · cases hport
    · cases hport
  · rintro ⟨hnoPort, -⟩
    exact hnoPort ⟨"127.0.0.1".toList, ['*'], rfl, Or.inl rfl⟩
  · exact absurd (port_of_stable localSocket_lawful hstable).2 (by decide)

end Startup

end Jubilee
