import Mathlib.Data.List.Basic

/-! # The UTF-8 check of `nlohmann::json::dump`

`Common::ConnectAndSendJson` serialises every packet with `dump()`, whose serializer writes
each string and each member name through `serializer::dump_escaped`.  That function runs the
bytes through a table-driven UTF-8 decoder (`serializer::decode`), one byte at a time, and with
the default strict error handler throws `type_error` 316 at the first byte the decoder rejects,
or at the end of a string that stops inside a character.  The library is not under `src/`; this
module models the decoder by the states of its table: between characters, or inside one with
the continuation bytes still owed and the range the next must lie in.  The decoder accepts
exactly well-formed UTF-8: no overlong form, no surrogate, nothing above U+10FFFF.

A `std::string` is its bytes.  The texts of the packet model are Lean strings, whose bytes are
`String.toUTF8`'s.
-/

namespace SynthesisRepo.LogPipe

/-- A `std::string`: its bytes, in order. -/
abbrev Bytes := List UInt8

/-- The bytes of a Lean string in UTF-8, as `String.toUTF8` lays them out. -/
def bytesOf (s : String) : Bytes := s.data.flatMap String.utf8EncodeChar

@[simp] theorem bytesOf_append (s t : String) : bytesOf (s ++ t) = bytesOf s ++ bytesOf t :=
  List.flatMap_append _ _ _

namespace Utf8

/-- Where the decoder stands between bytes. -/
inductive State where
  /-- Between characters: `UTF8_ACCEPT`. -/
  | accept
  /-- One continuation byte owed. -/
  | tail1
  /-- Two owed. -/
  | tail2
  /-- Three owed. -/
  | tail3
  /-- After `0xE0`: a byte of `0xA0-0xBF`, then one continuation byte. -/
  | afterE0
  /-- After `0xED`: a byte of `0x80-0x9F`, then one continuation byte. -/
  | afterED
  /-- After `0xF0`: a byte of `0x90-0xBF`, then two continuation bytes. -/
  | afterF0
  /-- After `0xF4`: a byte of `0x80-0x8F`, then two continuation bytes. -/
  | afterF4
  deriving DecidableEq, Repr

/-- `next` when `low ≤ byte ≤ high`, and `UTF8_REJECT` otherwise. -/
def within (low high : Nat) (byte : UInt8) (next : State) : Option State :=
  if low ≤ byte.toNat ∧ byte.toNat ≤ high then some next else none

/-- The first byte of a character. -/
def first (byte : UInt8) : Option State :=
  if byte.toNat ≤ 0x7F then some .accept
  else if 0xC2 ≤ byte.toNat ∧ byte.toNat ≤ 0xDF then some .tail1
  else if byte.toNat = 0xE0 then some .afterE0
  else if 0xE1 ≤ byte.toNat ∧ byte.toNat ≤ 0xEC then some .tail2
  else if byte.toNat = 0xED then some .afterED
  else if 0xEE ≤ byte.toNat ∧ byte.toNat ≤ 0xEF then some .tail2
  else if byte.toNat = 0xF0 then some .afterF0
  else if 0xF1 ≤ byte.toNat ∧ byte.toNat ≤ 0xF3 then some .tail3
  else if byte.toNat = 0xF4 then some .afterF4
  else none

/-- `serializer::decode`: the state after one byte, or none for `UTF8_REJECT`. -/
def decode : State → UInt8 → Option State
  | .accept, byte => first byte
  | .tail1, byte => within 0x80 0xBF byte .accept
  | .tail2, byte => within 0x80 0xBF byte .tail1
  | .tail3, byte => within 0x80 0xBF byte .tail2
  | .afterE0, byte => within 0xA0 0xBF byte .tail1
  | .afterED, byte => within 0x80 0x9F byte .tail1
  | .afterF0, byte => within 0x90 0xBF byte .tail2
  | .afterF4, byte => within 0x80 0x8F byte .tail2

/-- How `dump_escaped`'s loop over a string ends: at the index of the first rejected byte, or
after the last byte in some state. -/
inductive Scan where
  | rejected (index : Nat) (byte : UInt8)
  | ended (state : State)
  deriving DecidableEq, Repr

/-- A scan of a suffix, as seen from `offset` bytes before it. -/
def Scan.shift (offset : Nat) : Scan → Scan
  | .rejected index byte => .rejected (offset + index) byte
  | .ended state => .ended state

/-- The loop of `dump_escaped` over the bytes of a string, from a decoder state. -/
def scan : State → Bytes → Scan
  | state, [] => .ended state
  | state, byte :: rest =>
    match decode state byte with
    | none => .rejected 0 byte
    | some state' => (scan state' rest).shift 1

/-- Well-formed UTF-8: the decoder reads every byte and ends between characters. -/
def Valid (s : Bytes) : Prop := scan .accept s = .ended .accept

instance (s : Bytes) : Decidable (Valid s) := inferInstanceAs (Decidable (scan .accept s = .ended .accept))

@[simp] theorem Scan.shift_zero (result : Scan) : result.shift 0 = result := by
  cases result <;> simp [Scan.shift]

theorem Scan.shift_shift (result : Scan) (first second : Nat) :
    (result.shift first).shift second = result.shift (second + first) := by
  cases result <;> simp [Scan.shift, Nat.add_assoc]

/-- A scan of two strings in turn: the first's rejection, or the second's scan from the state
the first ends in. -/
theorem scan_append (state : State) (front back : Bytes) :
    scan state (front ++ back) =
      match scan state front with
      | .rejected index byte => .rejected index byte
      | .ended state' => (scan state' back).shift front.length := by
  induction front generalizing state with
  | nil => simp [scan]
  | cons byte front ih =>
    rw [List.cons_append, scan, scan]
    cases decode state byte with
    | none => rfl
    | some state' =>
      dsimp only
      rw [ih]
      cases scan state' front with
      | rejected index byte => rfl
      | ended state'' => rw [Scan.shift_shift, Nat.add_comm]; rfl

theorem valid_append {front back : Bytes} (validFront : Valid front) (validBack : Valid back) :
    Valid (front ++ back) := by
  unfold Valid at *
  rw [scan_append, validFront]
  simp [validBack, Scan.shift]

end Utf8

end SynthesisRepo.LogPipe
