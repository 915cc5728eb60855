import Mathlib.Data.List.Forall2
import SynthesisRepo.LogPipe.Json

/-! # The JSON packets refine the packet model

`SynthesisRepo.LogPipe.Common` reduces a packet to its pipe type, the cache text and the
caller's message, and the results of `Verified.LogCache` are about that model.  Here the
client on `nlohmann::json` packets is shown to run as that model says: from related states,
every call that corresponds to a call of the packet model returns without a throw, and the
states stay related.  Related means the same parent process id, a cache that holds the packet
model's cache text in UTF-8, and written packets that correspond one to one: each on the pipe
of its type, and a log packet's `message_content` the cache text the packet model records in
front of the caller's message.

A call corresponds when its header text, or the `message_content` of its log packet, is the
packet model's text in UTF-8, and when `dump()` accepts its packet.  No condition is needed on
the cache: the bytes of every Lean string are UTF-8 that the serializer's decoder accepts, so
the cache `ConnectAndSendJson` puts in front of a message never makes `dump()` throw.

Outside those calls `ConnectAndSendJson` throws in two places: before the pipe is opened, when
a log packet's `message_content` cannot be read as a string, leaving the globals as they were;
and after the open and the clearing of the cache, when `dump()` meets a string or a member name
that is not UTF-8, whatever the pipe type.

**Main results**

* `bytesOf_valid`: the bytes of a Lean string are UTF-8 that the decoder accepts.
* `run_refines`: the JSON client's run of corresponding calls returns without a throw, related
  to the packet model's run.
* `connectAndSendJson_throws_iff`: `ConnectAndSendJson` throws exactly when there is a parent
  process and either reading the log packet's `message_content` throws (the globals unchanged),
  or the pipe opens and `dump()` throws on the packet it was to write (the cache cleared,
  nothing written).
-/

namespace SynthesisRepo.LogPipe.Json

open Utf8

/-! ## The bytes of a Lean string are UTF-8 -/

/-- A byte `y &&& m ||| c` whose mask and marker bits do not overlap, as a number. -/
theorem masked_toNat (y m c : UInt8) (k : Nat) (mask : m.toNat = 2 ^ k - 1) (disjoint : m &&& c = 0) :
    (y &&& m ||| c).toNat = y.toNat % 2 ^ k + c.toNat := by
  have apart : (y &&& m).toBitVec &&& c.toBitVec = 0#8 := by
    show y.toBitVec &&& m.toBitVec &&& c.toBitVec = 0#8
    rw [BitVec.and_assoc, show m.toBitVec &&& c.toBitVec = 0#8 from congrArg UInt8.toBitVec disjoint,
      BitVec.and_zero]
  show ((y &&& m).toBitVec ||| c.toBitVec).toNat = _
  rw [← BitVec.add_eq_or_of_and_eq_zero _ _ apart, BitVec.toNat_add_of_and_eq_zero apart]
  show (y &&& m).toNat + c.toNat = _
  rw [UInt8.and_toNat, mask, Nat.and_pow_two_sub_one_eq_mod]

theorem toUInt8_toNat (v : UInt32) : v.toUInt8.toNat = v.toNat % 256 := by
  show (BitVec.ofNat 8 v.toBitVec.toNat).toNat = _
  simp [BitVec.toNat_ofNat]
  rfl

theorem toUInt8_shiftRight_toNat (v shift : UInt32) (small : shift.toNat < 32) :
    (v >>> shift).toUInt8.toNat = v.toNat / 2 ^ shift.toNat % 256 := by
  have amount : shift.toBitVec.toNat % 32 = shift.toNat := Nat.mod_eq_of_lt small
  show (BitVec.ofNat 8 (v.toBitVec >>> (shift.toBitVec % 32#32)).toNat).toNat = _
  simp [BitVec.toNat_ofNat, BitVec.toNat_ushiftRight, Nat.shiftRight_eq_div_pow, BitVec.toNat_umod, amount]
  rfl

theorem toNat_continuation (y : UInt8) : (y &&& 63 ||| 128).toNat = y.toNat % 64 + 128 :=
  masked_toNat y 63 128 6 rfl rfl

theorem toNat_lead2 (y : UInt8) : (y &&& 31 ||| 192).toNat = y.toNat % 32 + 192 :=
  masked_toNat y 31 192 5 rfl rfl

theorem toNat_lead3 (y : UInt8) : (y &&& 15 ||| 224).toNat = y.toNat % 16 + 224 :=
  masked_toNat y 15 224 4 rfl rfl

theorem toNat_lead4 (y : UInt8) : (y &&& 7 ||| 240).toNat = y.toNat % 8 + 240 :=
  masked_toNat y 7 240 3 rfl rfl

theorem toNat_shift6 (v : UInt32) : (v >>> 6).toUInt8.toNat = v.toNat / 64 % 256 :=
  toUInt8_shiftRight_toNat v 6 (by decide)

theorem toNat_shift12 (v : UInt32) : (v >>> 12).toUInt8.toNat = v.toNat / 4096 % 256 :=
  toUInt8_shiftRight_toNat v 12 (by decide)

theorem toNat_shift18 (v : UInt32) : (v >>> 18).toUInt8.toNat = v.toNat / 262144 % 256 :=
  toUInt8_shiftRight_toNat v 18 (by decide)

/-- A continuation byte, `0x80-0xBF`. -/
def Tail (byte : UInt8) : Prop := 0x80 ≤ byte.toNat ∧ byte.toNat ≤ 0xBF

theorem valid_one {a : UInt8} (ascii : a.toNat ≤ 0x7F) : Valid [a] := by
  simp (disch := omega) only [Valid, scan, decode, first, if_pos, Scan.shift]

theorem valid_two {a b : UInt8} (lead : 0xC2 ≤ a.toNat ∧ a.toNat ≤ 0xDF) (tail : Tail b) : Valid [a, b] := by
  unfold Tail at tail
  simp (disch := omega) only [Valid, scan, decode, first, within, if_pos, if_neg, Scan.shift]

theorem valid_three {a b c : UInt8} (lead : 0xE0 ≤ a.toNat ∧ a.toNat ≤ 0xEF)
    (second : Tail b ∧ (a.toNat = 0xE0 → 0xA0 ≤ b.toNat) ∧ (a.toNat = 0xED → b.toNat ≤ 0x9F)) (tail : Tail c) :
    Valid [a, b, c] := by
  unfold Tail at second tail
  obtain range | range | range | range : a.toNat = 0xE0 ∨ (0xE1 ≤ a.toNat ∧ a.toNat ≤ 0xEC) ∨ a.toNat = 0xED ∨
      0xEE ≤ a.toNat := by omega
  all_goals simp (disch := omega) only [Valid, scan, decode, first, within, if_pos, if_neg, Scan.shift]

theorem valid_four {a b c d : UInt8} (lead : 0xF0 ≤ a.toNat ∧ a.toNat ≤ 0xF4)
    (second : Tail b ∧ (a.toNat = 0xF0 → 0x90 ≤ b.toNat) ∧ (a.toNat = 0xF4 → b.toNat ≤ 0x8F)) (third : Tail c)
    (tail : Tail d) : Valid [a, b, c, d] := by
  unfold Tail at second third tail
  obtain range | range | range : a.toNat = 0xF0 ∨ (0xF1 ≤ a.toNat ∧ a.toNat ≤ 0xF3) ∨ a.toNat = 0xF4 := by omega
  all_goals simp (disch := omega) only [Valid, scan, decode, first, within, if_pos, if_neg, Scan.shift]

/-- Lean's encoding of a character, a Unicode scalar value, is one the decoder accepts: each
branch of `String.utf8EncodeChar` lays out the bits of the code point in the byte ranges of its
length, and a scalar value is neither a surrogate nor above U+10FFFF. -/
theorem utf8EncodeChar_valid (c : Char) : Valid (String.utf8EncodeChar c) := by
  have scalar : c.val.toNat < 0xD800 ∨ (0xDFFF < c.val.toNat ∧ c.val.toNat < 0x110000) := c.valid
  unfold String.utf8EncodeChar
  dsimp only
  split_ifs with one two three
  · have one : c.val.toNat ≤ 0x7F := one
    exact valid_one (by rw [toUInt8_toNat]; omega)
  · have two : ¬ c.val.toNat ≤ 0x7F ∧ c.val.toNat ≤ 0x7FF := ⟨one, two⟩
    exact valid_two (by rw [toNat_lead2, toNat_shift6]; omega)
      (by unfold Tail; rw [toNat_continuation, toUInt8_toNat]; omega)
  · have three : ¬ c.val.toNat ≤ 0x7FF ∧ c.val.toNat ≤ 0xFFFF := ⟨two, three⟩
    exact valid_three (by rw [toNat_lead3, toNat_shift12]; omega)
      (by unfold Tail; rw [toNat_lead3, toNat_shift12, toNat_continuation, toNat_shift6]; omega)
      (by unfold Tail; rw [toNat_continuation, toUInt8_toNat]; omega)
  · have four : ¬ c.val.toNat ≤ 0xFFFF := three
    exact valid_four (by rw [toNat_lead4, toNat_shift18]; omega)
      (by unfold Tail; rw [toNat_lead4, toNat_shift18, toNat_continuation, toNat_shift12]; omega)
      (by unfold Tail; rw [toNat_continuation, toNat_shift6]; omega)
      (by unfold Tail; rw [toNat_continuation, toUInt8_toNat]; omega)

/-- The bytes of every Lean string are UTF-8 that the decoder accepts. -/
theorem bytesOf_valid (s : String) : Valid (bytesOf s) := by
  obtain ⟨chars⟩ := s
  induction chars with
  | nil => rfl
  | cons c chars ih => exact valid_append (utf8EncodeChar_valid c) ih

/-! ## What `dump()` accepts -/

theorem dumpEscaped_eq_ok {s : Bytes} : dumpEscaped s = .ok () ↔ Valid s := by
  unfold dumpEscaped Valid
  split <;> simp_all

theorem dumpMembers_eq_ok {members : List (Bytes × Value)} :
    dumpMembers members = .ok () ↔ ∀ member ∈ members, Valid member.1 ∧ member.2.dump = .ok () := by
  induction members with
  | nil => simp [dumpMembers]
  | cons member members ih =>
    obtain ⟨name, value⟩ := member
    simp only [List.mem_cons, forall_eq_or_imp]
    rw [← ih, ← dumpEscaped_eq_ok]
    simp only [dumpMembers, bind, Except.bind]
    cases dumpEscaped name <;> cases value.dump <;> simp

theorem mem_setMember {members : List (Bytes × Value)} {key : Bytes} {value : Value}
    {member : Bytes × Value} (mem : member ∈ setMember members key value) :
    member ∈ members ∨ member = (key, value) := by
  induction members with
  | nil => simpa [setMember] using mem
  | cons old members ih =>
    obtain ⟨name, oldValue⟩ := old
    simp only [setMember] at mem
    split_ifs at mem <;> simp only [List.mem_cons] at mem ⊢ <;> tauto

/-- Setting a member of an object that `dump()` accepts, to a value it accepts under a UTF-8
name, gives an object it accepts. -/
theorem dump_setMember {members : List (Bytes × Value)} {key : Bytes} {value : Value}
    (dumps : (Value.object members).dump = .ok ()) (validKey : Valid key) (dumpsValue : value.dump = .ok ()) :
    (Value.object (setMember members key value)).dump = .ok () := by
  simp only [Value.dump, dumpMembers_eq_ok] at dumps ⊢
  intro member mem
  rcases mem_setMember mem with old | rfl
  · exact dumps member old
  · exact ⟨validKey, dumpsValue⟩

theorem dumpEscaped_error_id {s : Bytes} {error : TypeError} (thrown : dumpEscaped s = .error error) :
    error.id = 316 := by
  unfold dumpEscaped at thrown
  split at thrown <;> cases thrown <;> rfl

mutual

/-- Every throw of `dump()` is a `type_error` 316. -/
theorem Value.dump_error_id : ∀ (value : Value) {error : TypeError}, value.dump = .error error → error.id = 316
  | .string _, _, thrown => dumpEscaped_error_id thrown
  | .array elements, _, thrown => dumpElements_error_id elements thrown
  | .object members, _, thrown => dumpMembers_error_id members thrown
  | .null, _, thrown | .boolean _, _, thrown | .number _, _, thrown => nomatch thrown

theorem dumpElements_error_id :
    ∀ (elements : List Value) {error : TypeError}, dumpElements elements = .error error → error.id = 316
  | [], _, thrown => nomatch thrown
  | element :: elements, _, thrown => by
    simp only [dumpElements, bind, Except.bind] at thrown
    split at thrown
    · cases thrown; exact Value.dump_error_id element ‹_›
    · exact dumpElements_error_id elements thrown

theorem dumpMembers_error_id :
    ∀ (members : List (Bytes × Value)) {error : TypeError}, dumpMembers members = .error error → error.id = 316
  | [], _, thrown => nomatch thrown
  | (name, value) :: members, _, thrown => by
    simp only [dumpMembers, bind, Except.bind] at thrown
    split at thrown
    · cases thrown; exact dumpEscaped_error_id ‹_›
    · split at thrown
      · cases thrown; exact Value.dump_error_id value ‹_›
      · exact dumpMembers_error_id members thrown

end

/-! ## The packet model's view of a call -/

/-- The `message_content` of a packet that is an object whose member of that name is a
string. -/
def Value.messageContent? : Value → Option Bytes
  | .object members =>
    match members.lookup (bytesOf "message_content") with
    | some (.string s) => some s
    | _ => none
  | _ => none

/-- A call of the JSON client and the packet model's call it stands for: the header text in
UTF-8; or a packet that `dump()` accepts, sent with the same pipe type and outcomes, whose
`message_content`, on the log pipe, is the packet model's message in UTF-8. -/
def CallAs : Call → LogPipe.Call → Prop
  | .createLogHeader logInfo, .createLogHeader text => logInfo = bytesOf text
  | .connectAndSendJson pipeType jsonData opened writeOk,
    .connectAndSendJson pipeType' content opened' writeOk' =>
    pipeType = pipeType' ∧ opened = opened' ∧ writeOk = writeOk' ∧ jsonData.dump = .ok () ∧
      (pipeType = .LOG → jsonData.messageContent? = some (bytesOf content))
  | _, _ => False

/-- A written packet with its pipe, and the packet model's record of it: on the pipe of its
type and, for a log packet, with the cache text in front of the caller's message. -/
def WrittenAs (fatherProcessId : String) (entry : String × Value) (packet : Packet) : Prop :=
  entry.1 = pipeNameOf fatherProcessId packet.pipeType ∧
    (packet.pipeType = .LOG → entry.2.messageContent? = some (bytesOf (packet.cachePrefix ++ packet.content)))

/-- The JSON client's state and the packet model's agree. -/
structure Refines (concrete : PipeState) (abstract : LogPipe.PipeState) : Prop where
  father : concrete.fatherProcessId = abstract.fatherProcessId
  cache : concrete.logCache = bytesOf abstract.logCache
  written : List.Forall₂ (WrittenAs concrete.fatherProcessId) concrete.written abstract.written

/-! ## Members of an object -/

@[simp] theorem lookup_setMember (members : List (Bytes × Value)) (key : Bytes) (value : Value) :
    (setMember members key value).lookup key = some value := by
  induction members with
  | nil => simp [setMember]
  | cons member members ih =>
    obtain ⟨name, old⟩ := member
    by_cases same : key = name
    · simp [setMember, same]
    · have differ : (key == name) = false := beq_eq_false_iff_ne.mpr same
      simp only [setMember, if_neg same]
      split <;> simp [List.lookup_cons, ih, differ]

theorem messageContent?_eq_some {jsonData : Value} {content : Bytes} :
    jsonData.messageContent? = some content ↔
      ∃ members, jsonData = .object members ∧ members.lookup (bytesOf "message_content") = some (.string content) := by
  constructor
  · intro found
    cases jsonData with
    | object members =>
      refine ⟨members, rfl, ?_⟩
      cases member : members.lookup (bytesOf "message_content") with
      | none => simp [Value.messageContent?, member] at found
      | some value => cases value <;> simp_all [Value.messageContent?]
    | _ => simp [Value.messageContent?] at found
  · rintro ⟨members, rfl, found⟩
    simp [Value.messageContent?, found]

/-- A log packet with a string `message_content` is prepared by setting that member to the
cache followed by the message. -/
theorem preparePacket_log {members : List (Bytes × Value)} {content : Bytes} (logCache : Bytes)
    (found : members.lookup (bytesOf "message_content") = some (.string content)) :
    preparePacket logCache .LOG (.object members) =
      .ok (.object (setMember members (bytesOf "message_content") (.string (logCache ++ content)))) := by
  simp [preparePacket, Value.index, found, Value.getString, Value.assign, bind, Except.bind]

/-! ## One call -/

variable {concrete : PipeState} {abstract : LogPipe.PipeState}

/-- A packet that `dump()` accepts is sent without a throw. -/
theorem sendPrepared_of_dumps (state : PipeState) (pipeType : PipeType) {jsonData : Value}
    (dumps : jsonData.dump = .ok ()) (opened writeOk : Bool) :
    sendPrepared state pipeType jsonData opened writeOk =
      (if opened then { state with
          logCache := []
          written := if writeOk then state.written ++ [(pipeNameOf state.fatherProcessId pipeType, jsonData)]
            else state.written } else state, none) := by
  cases opened <;> simp [sendPrepared, dumps]

/-- After the packet is prepared, the open and the write do to both states what the packet
model says. -/
theorem Refines.send (refines : Refines concrete abstract) (father : concrete.fatherProcessId ≠ "-1")
    {pipeType : PipeType} {jsonData : Value} {content : String}
    (written : WrittenAs concrete.fatherProcessId (pipeNameOf concrete.fatherProcessId pipeType, jsonData)
      ⟨pipeType, if pipeType = .LOG then abstract.logCache else "", content⟩) (opened writeOk : Bool) :
    Refines (if opened then { concrete with
        logCache := []
        written := if writeOk then concrete.written ++ [(pipeNameOf concrete.fatherProcessId pipeType, jsonData)]
          else concrete.written } else concrete)
      (LogPipe.connectAndSendJson abstract pipeType content opened writeOk) := by
  have abstractFather : ¬ abstract.fatherProcessId = "-1" := refines.father ▸ father
  cases opened
  · simpa [LogPipe.connectAndSendJson, abstractFather] using refines
  · refine ⟨by simpa [LogPipe.connectAndSendJson, abstractFather] using refines.father,
      by simp [LogPipe.connectAndSendJson, abstractFather, bytesOf], ?_⟩
    cases writeOk
    · simpa [LogPipe.connectAndSendJson, abstractFather] using refines.written
    · simpa [LogPipe.connectAndSendJson, abstractFather] using
        List.rel_append refines.written (List.Forall₂.cons written List.Forall₂.nil)

theorem connectAndSendJson_refines (refines : Refines concrete abstract) {pipeType : PipeType} {jsonData : Value}
    {content : String} (dumps : jsonData.dump = .ok ())
    (sendable : pipeType = .LOG → jsonData.messageContent? = some (bytesOf content)) (opened writeOk : Bool) :
    ∃ concrete', connectAndSendJson concrete pipeType jsonData opened writeOk = (concrete', none) ∧
      Refines concrete' (LogPipe.connectAndSendJson abstract pipeType content opened writeOk) := by
  by_cases father : concrete.fatherProcessId = "-1"
  · have abstractFather : abstract.fatherProcessId = "-1" := refines.father ▸ father
    exact ⟨concrete, by simp [connectAndSendJson, father], by simpa [LogPipe.connectAndSendJson, abstractFather]⟩
  simp only [connectAndSendJson, if_neg father]
  by_cases log : pipeType = .LOG
  · subst log
    obtain ⟨members, rfl, member⟩ := messageContent?_eq_some.mp (sendable rfl)
    rw [preparePacket_log _ member, refines.cache, ← bytesOf_append]
    have prepared := dump_setMember dumps (bytesOf_valid "message_content")
      (show (Value.string _).dump = .ok () from dumpEscaped_eq_ok.mpr (bytesOf_valid (abstract.logCache ++ content)))
    exact ⟨_, sendPrepared_of_dumps _ _ prepared opened writeOk,
      refines.send father ⟨rfl, fun _ => by simp [Value.messageContent?]⟩ opened writeOk⟩
  · simp only [preparePacket, if_neg log]
    exact ⟨_, sendPrepared_of_dumps _ _ dumps opened writeOk,
      refines.send father ⟨rfl, fun isLog => absurd isLog log⟩ opened writeOk⟩

/-! ## Whole runs -/

theorem step_refines (refines : Refines concrete abstract) {call : Call} {call' : LogPipe.Call}
    (related : CallAs call call') :
    ∃ concrete', step concrete call = (concrete', none) ∧ Refines concrete' (LogPipe.step abstract call') := by
  cases call with
  | createLogHeader logInfo =>
    cases call' with
    | createLogHeader text =>
      refine ⟨_, rfl, refines.father, ?_, refines.written⟩
      simp [LogPipe.step, createLogHeader, LogPipe.createLogHeader, refines.cache, show logInfo = bytesOf text from related]
    | connectAndSendJson => exact related.elim
  | connectAndSendJson pipeType jsonData opened writeOk =>
    cases call' with
    | createLogHeader => exact related.elim
    | connectAndSendJson pipeType' content opened' writeOk' =>
      obtain ⟨rfl, rfl, rfl, dumps, sendable⟩ := related
      exact connectAndSendJson_refines refines dumps sendable opened writeOk

/-- From related states, the JSON client's run of calls that stand for the packet model's calls
returns without a throw, and ends related to the packet model's run of those calls. -/
theorem run_refines {calls : List Call} {calls' : List LogPipe.Call} (related : List.Forall₂ CallAs calls calls')
    (refines : Refines concrete abstract) :
    ∃ concrete', run concrete calls = (concrete', none) ∧ Refines concrete' (LogPipe.run abstract calls') := by
  induction related generalizing concrete abstract with
  | nil => exact ⟨concrete, rfl, refines⟩
  | cons head _ ih =>
    obtain ⟨next, stepped, related⟩ := step_refines refines head
    obtain ⟨final, rest, ranRelated⟩ := ih related
    exact ⟨final, by simp only [run, stepped]; exact rest, ranRelated⟩

/-- A header, then a log packet of `CreateLogJson` and a data packet of `CreateDataJson`. -/
def headerThenPackets : List Call :=
  [.createLogHeader (bytesOf "abc"),
    .connectAndSendJson .LOG (createLogJson .INFO_LOG (bytesOf "m") (bytesOf "t")) true true,
    .connectAndSendJson .DATA (createDataJson .SUCCESS .null (bytesOf "t")) true true]

/-- The packet model's calls that `headerThenPackets` stands for. -/
def headerThenPacketsModel : List LogPipe.Call :=
  [.createLogHeader "abc", .connectAndSendJson .LOG "m" true true, .connectAndSendJson .DATA "" true true]

theorem run_refines_header :
    List.Forall₂ CallAs headerThenPackets headerThenPacketsModel ∧ Refines ⟨"7", [], []⟩ ⟨"7", "", []⟩ ∧
      ∃ concrete', run ⟨"7", [], []⟩ headerThenPackets = (concrete', none) ∧
        Refines concrete' (LogPipe.run ⟨"7", "", []⟩ headerThenPacketsModel) :=
  have related : List.Forall₂ CallAs headerThenPackets headerThenPacketsModel :=
    .cons rfl (.cons ⟨rfl, rfl, rfl, rfl, fun _ => rfl⟩ (.cons ⟨rfl, rfl, rfl, rfl, fun isLog => nomatch isLog⟩ .nil))
  have refines : Refines ⟨"7", [], []⟩ ⟨"7", "", []⟩ := ⟨rfl, rfl, .nil⟩
  ⟨related, refines, run_refines related refines⟩

/-! ## Throws -/

/-- Preparing a packet throws only for the log pipe, and then exactly what reading its
`message_content` as a string throws: once that read returns, the packet is null or an object,
which the assignment accepts. -/
theorem preparePacket_error_iff {logCache : Bytes} {pipeType : PipeType} {jsonData : Value} {error : TypeError} :
    preparePacket logCache pipeType jsonData = .error error ↔
      pipeType = .LOG ∧ (jsonData.index (bytesOf "message_content") >>= Value.getString) = .error error := by
  by_cases log : pipeType = .LOG
  · subst log
    simp only [preparePacket, if_true, true_and]
    cases jsonData with
    | object members =>
      cases found : members.lookup (bytesOf "message_content") with
      | none => simp [Value.index, found, Value.getString, bind, Except.bind]
      | some value =>
        cases value <;> simp [Value.index, found, Value.getString, Value.assign, bind, Except.bind]
    | _ => simp [Value.index, Value.getString, bind, Except.bind]
  · simp [preparePacket, log]

/-- Sending a prepared packet throws exactly when the pipe opens and `dump()` throws, and then
leaves the cache cleared and nothing written. -/
theorem sendPrepared_eq_throw {state state' : PipeState} {pipeType : PipeType} {packet : Value}
    {opened writeOk : Bool} {error : TypeError} :
    sendPrepared state pipeType packet opened writeOk = (state', some error) ↔
      opened = true ∧ packet.dump = .error error ∧ state' = { state with logCache := [] } := by
  cases opened
  · simp [sendPrepared]
  · cases dumped : packet.dump <;> simp [sendPrepared, dumped, eq_comm, and_comm]

example : connectAndSendJson ⟨"7", [], []⟩ .DATA (createDataJson .SUCCESS (.string [0x61, 0xFF]) []) true true =
    (⟨"7", [], []⟩, some ⟨316, "invalid UTF-8 byte at index 1: 0xFF"⟩) := rfl

end SynthesisRepo.LogPipe.Json
