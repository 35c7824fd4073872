import Jubilee.RackEnv.Joined
/-!
# Rack env — the encoder of header names

The bytes of a key are made by a loop over an array, for speed.
`rackHeaderNameToBytes_plain` says that they are those of the plain
composition the loop stands for, and which names they are the same for.
-/

namespace Jubilee

namespace RackEnv

/-! ## The loop -/

/-- `charAt`. -/
def charAt (headerName : JString) (index : ℕ) : Except Raised Char :=
  match headerName[index]? with
  | some c => .ok c
  | none => .error .indexOutOfBounds

/-- The body of the loop. -/
def headerizeAt (headerName : JString) (envNameBytes : Bytes) (i : ℕ) : Except Raised Bytes :=
  (charAt headerName (i - 5)).map fun c => envNameBytes.set i (charToByte (rackHeaderize c))

/-- `rackHeaderNameToBytes`, as it is written. -/
def rackHeaderNameToBytesLoop (headerName : JString) : Except Raised Bytes :=
  let envNameBytes : Bytes := List.replicate (headerName.length + 5) 0
  let envNameBytes :=
    ((((envNameBytes.set 0 72).set 1 84).set 2 84).set 3 80).set 4 95
  (List.range' 5 (envNameBytes.length - 5)).foldlM (headerizeAt headerName) envNameBytes

/-! ## What it stands for -/

/-- `replace('-', '_')`, of one character. -/
def replaceDash (c : Char) : Char := if c = '-' then '_' else c

/-- `"HTTP_" + headerName.toUpperCase().replace('-', '_')`. -/
def plainName (headerName : JString) : JString :=
  "HTTP_".toList ++ (headerName.map Char.toUpper).map replaceDash

/-- The ASCII encoding, with a `?` for what is not ASCII. -/
def encodeAscii (text : JString) : Bytes :=
  text.map fun c => if c.toNat < 128 then UInt8.ofNat c.toNat else 63

/-- A name of ASCII characters. -/
def AsciiName (name : JString) : Prop := ∀ c ∈ name, c.toNat < 128

/-- The names are the same but for the case of letters, and for `-` and
`_`. -/
def SameKey (name name' : JString) : Prop :=
  equalsIgnoreCase (name.map replaceDash) (name'.map replaceDash) = true

instance (name name' : JString) : Decidable (SameKey name name') :=
  inferInstanceAs (Decidable (_ = _))

variable {name name' : JString} {c : Char}

/-! ## The loop is the map -/

theorem headerizeAt_append (pre : JString) (c : Char) (rest : JString) (tail : Bytes) :
    headerizeAt (pre ++ c :: rest)
        (httpPrefix ++ pre.map (fun c => charToByte (rackHeaderize c)) ++ 0 :: tail)
        (5 + pre.length) =
      .ok (httpPrefix ++ (pre ++ [c]).map (fun c => charToByte (rackHeaderize c)) ++ tail) := by
  have hchar : charAt (pre ++ c :: rest) (5 + pre.length - 5) = .ok c := by
    rw [charAt, Nat.add_sub_cancel_left, List.getElem?_append_right (Nat.le_refl _), Nat.sub_self,
      List.getElem?_cons_zero]
  have hlength : (httpPrefix ++ pre.map fun c => charToByte (rackHeaderize c)).length =
      5 + pre.length := by
    rw [List.length_append, List.length_map]
    rfl
  rw [headerizeAt, hchar, Except.map, List.set_append_right _ _ (Nat.le_of_eq hlength), hlength,
    Nat.sub_self, List.set_cons_zero, List.map_append]
  simp

/-- What the loop does with the characters that are left. -/
theorem foldlM_headerizeAt (pre rest : JString) :
    (List.range' (5 + pre.length) rest.length).foldlM (headerizeAt (pre ++ rest))
        (httpPrefix ++ pre.map (fun c => charToByte (rackHeaderize c)) ++
          List.replicate rest.length 0) =
      .ok (rackHeaderNameToBytes (pre ++ rest)) := by
  induction rest generalizing pre with
  | nil =>
    rw [List.append_nil, List.length_nil, List.range'_zero, List.foldlM_nil, List.replicate_zero,
      List.append_nil]
    rfl
  | cons c rest ih =>
    have hnext := ih (pre ++ [c])
    rw [List.append_assoc, List.singleton_append, List.length_append, List.length_singleton,
      ← Nat.add_assoc] at hnext
    rw [List.length_cons, List.range'_succ, List.foldlM_cons, List.replicate_succ,
      headerizeAt_append]
    exact hnext

/-- **The loop fills the array with the bytes of the key**, and never goes
out of bounds. -/
theorem rackHeaderNameToBytesLoop_eq (name : JString) :
    rackHeaderNameToBytesLoop name = .ok (rackHeaderNameToBytes name) := by
  have hstart : (((((List.replicate (name.length + 5) (0 : UInt8)).set 0 72).set 1 84).set 2
      84).set 3 80).set 4 95 = httpPrefix ++ List.replicate name.length 0 := rfl
  have hlength : (httpPrefix ++ List.replicate name.length (0 : UInt8)).length - 5 =
      name.length := by
    rw [List.length_append, List.length_replicate]
    exact Nat.add_sub_cancel_left 5 _
  unfold rackHeaderNameToBytesLoop
  dsimp only
  rw [hstart, hlength]
  exact foldlM_headerizeAt [] name

/-! ## One character -/

/-- An ASCII character may as well be upper-cased first and replaced then. -/
theorem rackHeaderize_eq (hc : c.toNat < 128) : rackHeaderize c = replaceDash c.toUpper := by
  have hascii : ∀ n < 128, rackHeaderize (Char.ofNat n) = replaceDash (Char.ofNat n).toUpper := by
    decide
  simpa only [Char.ofNat_toNat] using hascii c.toNat hc

/-- It stays an ASCII character. -/
theorem rackHeaderize_lt (hc : c.toNat < 128) : (rackHeaderize c).toNat < 128 := by
  have hascii : ∀ n < 128, (rackHeaderize (Char.ofNat n)).toNat < 128 := by decide
  simpa only [Char.ofNat_toNat] using hascii c.toNat hc

/-- Its case is all that upper-casing changes. -/
theorem toLowerCase_rackHeaderize (hc : c.toNat < 128) :
    toLowerCase (rackHeaderize c) = toLowerCase (replaceDash c) := by
  have hascii : ∀ n < 128, toLowerCase (rackHeaderize (Char.ofNat n)) =
      toLowerCase (replaceDash (Char.ofNat n)) := by decide
  simpa only [Char.ofNat_toNat] using hascii c.toNat hc

/-- From the byte the character is known, but for its case and for `-` and
`_`. -/
theorem toLowerCase_charToByte (hc : c.toNat < 128) :
    toLowerCase (Char.ofNat (charToByte (rackHeaderize c)).toNat) =
      toLowerCase (replaceDash c) := by
  have hbyte : (charToByte (rackHeaderize c)).toNat = (rackHeaderize c).toNat := by
    have hlt := rackHeaderize_lt hc
    rw [charToByte, UInt8.toNat_ofNat']
    exact Nat.mod_eq_of_lt (by omega)
  rw [hbyte, Char.ofNat_toNat, toLowerCase_rackHeaderize hc]

/-- Neither the case nor the replacement changes the byte. -/
theorem rackHeaderize_toLowerCase_replaceDash (c : Char) :
    rackHeaderize (toLowerCase (replaceDash c)) = rackHeaderize c := by
  rw [rackHeaderize_toLowerCase, rackHeaderize, rackHeaderize, replaceDash]
  by_cases hc : c = '-'
  · rw [if_pos hc]
    rfl
  · rw [if_neg hc, if_neg hc]

/-! ## A whole name -/

/-- **The bytes are the ASCII encoding of the plain name.** -/
theorem rackHeaderNameToBytes_eq (h : AsciiName name) :
    rackHeaderNameToBytes name = encodeAscii (plainName name) := by
  have hname : name.map (fun c => charToByte (rackHeaderize c)) =
      encodeAscii ((name.map Char.toUpper).map replaceDash) := by
    rw [encodeAscii, List.map_map, List.map_map]
    refine List.map_congr_left fun c hc => ?_
    rw [Function.comp, Function.comp, ← rackHeaderize_eq (h c hc),
      if_pos (rackHeaderize_lt (h c hc))]
    rfl
  have hprefix : encodeAscii "HTTP_".toList = httpPrefix := by decide
  rw [rackHeaderNameToBytes, plainName, hname, ← hprefix, encodeAscii, encodeAscii, encodeAscii,
    List.map_append]

/-- **The names that have the same bytes.** -/
theorem rackHeaderNameToBytes_eq_iff (h : AsciiName name) (h' : AsciiName name') :
    rackHeaderNameToBytes name = rackHeaderNameToBytes name' ↔ SameKey name name' := by
  have hlower : ∀ {name : JString}, AsciiName name → (name.map replaceDash).map toLowerCase =
      (name.map fun c => charToByte (rackHeaderize c)).map
        fun b => toLowerCase (Char.ofNat b.toNat) := by
    intro name h
    rw [List.map_map, List.map_map]
    exact List.map_congr_left fun c hc => (toLowerCase_charToByte (h c hc)).symm
  have hbytes : ∀ name : JString, (name.map fun c => charToByte (rackHeaderize c)) =
      ((name.map replaceDash).map toLowerCase).map fun c => charToByte (rackHeaderize c) := by
    intro name
    rw [List.map_map, List.map_map]
    refine List.map_congr_left fun c _ => ?_
    rw [Function.comp, Function.comp, rackHeaderize_toLowerCase_replaceDash]
  rw [SameKey, equalsIgnoreCase, decide_eq_true_eq, rackHeaderNameToBytes, rackHeaderNameToBytes,
    List.append_cancel_left_eq]
  constructor
  · intro heq
    rw [hlower h, hlower h', heq]
  · intro heq
    rw [hbytes name, hbytes name', heq]

/-- **The loop and the plain composition are the same**, byte for byte,
and two names get the same bytes if they are the same but for the case of
letters and for `-` and `_`, and only then. -/
theorem rackHeaderNameToBytes_plain (h : AsciiName name) (h' : AsciiName name') :
    rackHeaderNameToBytesLoop name = .ok (encodeAscii (plainName name)) ∧
      (rackHeaderNameToBytesLoop name = rackHeaderNameToBytesLoop name' ↔ SameKey name name') := by
  rw [rackHeaderNameToBytesLoop_eq, rackHeaderNameToBytesLoop_eq, Except.ok.injEq, Except.ok.injEq]
  exact ⟨rackHeaderNameToBytes_eq h, rackHeaderNameToBytes_eq_iff h h'⟩

/-- `X-Id` and `x_id` get the bytes of `HTTP_X_ID`. -/
theorem rackHeaderNameToBytes_plain_id :
    rackHeaderNameToBytesLoop "X-Id".toList = .ok (encodeAscii "HTTP_X_ID".toList) ∧
      rackHeaderNameToBytesLoop "X-Id".toList = rackHeaderNameToBytesLoop "x_id".toList := by
  have hname : AsciiName "X-Id".toList := by simp [AsciiName]
  have hname' : AsciiName "x_id".toList := by simp [AsciiName]
  obtain ⟨hbytes, hiff⟩ := rackHeaderNameToBytes_plain hname hname'
  exact ⟨hbytes, hiff.mpr (by decide)⟩

end RackEnv

end Jubilee
