import SynthesisRepo.LogPipe.Common
import SynthesisRepo.LogPipe.Utf8

/-! # The JSON packets of the log pipe

`libs/utils/log_pipe/common.cc` builds its packets as `nlohmann::json` values
(`CreateLogJson`, `CreateDataJson`, `CreateControlJson`), and `Common::ConnectAndSendJson`
rewrites the `message_content` member of a log packet before it writes the packet to the
pipe of its type.  This module models those functions on the values they build and read;
`SynthesisRepo.LogPipe.Common` models the same client with a packet reduced to the cache
text and the caller's message.

The `nlohmann::json` behaviour the functions rely on is the library's, which is not under
`src/`: an object is a `std::map` from member names, so its members stay sorted by name with
each name once; `operator[]` with a name, on a value that is not `const`, turns null into an
object, yields null for a missing member, and throws `type_error` 305 on a value that is
neither null nor an object; `get<std::string>()` throws `type_error` 302 on a value that is
not a string; `dump()` throws `type_error` 316 on a string or a member name that is not
UTF-8 (`SynthesisRepo.LogPipe.Utf8`).  Of `dump()` only that check is modelled: a written
packet is kept as the value it serialises.  Strings and member names are `std::string`s, kept
as their bytes.
-/

namespace SynthesisRepo.LogPipe

/-! ## Status codes and level names -/

/-- `enum class StatusCode`. -/
inductive StatusCode where
  | SUCCESS | BAD_REQUEST | UNAUTHORIZED | NOT_FOUND | INTERNAL_SERVER_ERROR
  deriving DecidableEq, Repr

/-- `static_cast<int>` of a `StatusCode`, with the header's values. -/
def StatusCode.toInt : StatusCode → Int
  | .SUCCESS => 200
  | .BAD_REQUEST => 400
  | .UNAUTHORIZED => 401
  | .NOT_FOUND => 404
  | .INTERNAL_SERVER_ERROR => 500

/-- `StatusCodeToString`.  Its `Invalid StatusCode value` branch is unreachable for the five
enumerators. -/
def statusCodeToString : StatusCode → String
  | .SUCCESS => "Success"
  | .BAD_REQUEST => "Bad Request"
  | .UNAUTHORIZED => "Unauthorized"
  | .NOT_FOUND => "Not Found"
  | .INTERNAL_SERVER_ERROR => "Internal Server Error"

/-- `LevelCodeToString`.  Its `Invalid LevelCode value` branch is unreachable for the five
enumerators. -/
def levelCodeToString : LevelCode → String
  | .INFO_LOG => "Info"
  | .WARNING_LOG => "Warning"
  | .CRITICAL_LOG => "CRITICAL_LOG"
  | .ERROR_LOG => "Error"
  | .ALWAYS_LOG => "ALWAYS"

namespace Json

/-! ## `nlohmann::json` values -/

/-- An `nlohmann::json` value of the kinds the packets hold.  The members of an object are
those of a `std::map`: sorted by name, each name once, as `setMember` keeps them. -/
inductive Value where
  | null
  | boolean (b : Bool)
  | number (n : Int)
  | string (s : Bytes)
  | array (elements : List Value)
  | object (members : List (Bytes × Value))
  deriving Repr

/-- `type_name()`. -/
def Value.typeName : Value → String
  | .null => "null"
  | .boolean _ => "boolean"
  | .number _ => "number"
  | .string _ => "string"
  | .array _ => "array"
  | .object _ => "object"

/-- An `nlohmann::json::type_error`: its id and the message it is created with; `what()` puts
`[json.exception.type_error.<id>] ` in front of the message. -/
structure TypeError where
  id : Nat
  message : String
  deriving DecidableEq, Repr

/-- `std::less<std::string>` on member names: `std::char_traits<char>` compares the bytes as
`unsigned char`, the first difference deciding and a proper prefix coming first. -/
def bytesLess : Bytes → Bytes → Bool
  | [], [] => false
  | [], _ :: _ => true
  | _ :: _, [] => false
  | a :: rest, b :: rest' => a < b || (a == b && bytesLess rest rest')

/-- `object[key] = value` on the members of an object: the `std::map` assignment, which
replaces the member of that name or inserts one in name order. -/
def setMember : List (Bytes × Value) → Bytes → Value → List (Bytes × Value)
  | [], key, value => [(key, value)]
  | (name, old) :: members, key, value =>
    if key = name then (key, value) :: members
    else if bytesLess key name then (key, value) :: (name, old) :: members
    else (name, old) :: setMember members key value

/-- `json[key]` on a value that is not `const`: null, or the member of that name of an object
(null if it has none); any other value throws. -/
def Value.index : Value → Bytes → Except TypeError Value
  | .null, _ => .ok .null
  | .object members, key => .ok ((members.lookup key).getD .null)
  | other, _ => .error ⟨305, "cannot use operator[] with a string argument with " ++ other.typeName⟩

/-- `json[key] = value`: a null value becomes an object with that one member. -/
def Value.assign : Value → Bytes → Value → Except TypeError Value
  | .null, key, value => .ok (.object [(key, value)])
  | .object members, key, value => .ok (.object (setMember members key value))
  | other, _, _ => .error ⟨305, "cannot use operator[] with a string argument with " ++ other.typeName⟩

/-- `get<std::string>()`. -/
def Value.getString : Value → Except TypeError Bytes
  | .string s => .ok s
  | other => .error ⟨302, "type must be string, but is " ++ other.typeName⟩

/-- A fresh `nlohmann::json packet` after `packet[key] = value` for each field in turn: the
first assignment makes the null `packet` an object, each one sets a member of it. -/
def objectOf (fields : List (Bytes × Value)) : Value :=
  .object (fields.foldl (fun members field => setMember members field.1 field.2) [])

/-! ## `dump()` -/

/-- `serializer::hex_bytes`: a byte as two upper-case hexadecimal digits. -/
def hexBytes (byte : UInt8) : String :=
  let nibbleToHex := "0123456789ABCDEF".toList
  String.mk [nibbleToHex.getD (byte.toNat / 16) '0', nibbleToHex.getD (byte.toNat % 16) '0']

/-- `serializer::dump_escaped` with the strict error handler, on the bytes of one string: the
`type_error` 316 it throws at the first byte the decoder rejects, or after the last byte when
the string stops inside a character. -/
def dumpEscaped (s : Bytes) : Except TypeError Unit :=
  match Utf8.scan .accept s with
  | .rejected index byte =>
    .error ⟨316, "invalid UTF-8 byte at index " ++ toString index ++ ": 0x" ++ hexBytes byte⟩
  | .ended .accept => .ok ()
  | .ended _ => .error ⟨316, "incomplete UTF-8 string; last byte: 0x" ++ hexBytes (s.getLastD 0)⟩

mutual

/-- `dump()` with its default arguments (no indentation, `ensure_ascii` false, the strict error
handler), up to its first throw: each string, and each member name before the member's value,
goes through `dump_escaped` in the order the text is written. -/
def Value.dump : Value → Except TypeError Unit
  | .string s => dumpEscaped s
  | .array elements => dumpElements elements
  | .object members => dumpMembers members
  | _ => .ok ()

/-- The elements of an array, in order. -/
def dumpElements : List Value → Except TypeError Unit
  | [] => .ok ()
  | element :: elements => do element.dump; dumpElements elements

/-- The members of an object, in order, each name before its value. -/
def dumpMembers : List (Bytes × Value) → Except TypeError Unit
  | [] => .ok ()
  | (name, value) :: members => do dumpEscaped name; value.dump; dumpMembers members

end

/-! ## Building packets -/

/-- `Common::CreateLogJson`. -/
def createLogJson (levelCode : LevelCode) (messageContent taskInfo : Bytes) : Value :=
  objectOf [(bytesOf "pipe_type", .string (bytesOf (pipeTypeToString .LOG))),
    (bytesOf "level_code", .number levelCode.toInt), (bytesOf "message_content", .string messageContent),
    (bytesOf "phase", .string (bytesOf "SYNTHESIS")), (bytesOf "sub_phase", .string (bytesOf "SYNTHESIS")),
    (bytesOf "category", .string (bytesOf "")), (bytesOf "task_info", .string taskInfo)]

/-- `Common::CreateDataJson`. -/
def createDataJson (code : StatusCode) (data : Value) (taskInfo : Bytes) : Value :=
  objectOf [(bytesOf "pipe_type", .string (bytesOf (pipeTypeToString .DATA))),
    (bytesOf "status_code", .number code.toInt), (bytesOf "data", data),
    (bytesOf "phase", .string (bytesOf "SYNTHESIS")), (bytesOf "sub_phase", .string (bytesOf "SYNTHESIS")),
    (bytesOf "task_info", .string taskInfo)]

/-- `Common::CreateControlJson`: `return {};` value-initialises the `json`, which is null. -/
def createControlJson : Value := .null

/-! ## Sending packets -/

/-- `Common::g_log_pipe_name`. -/
def gLogPipeName : String := "\\\\.\\pipe\\LogPipe_"

/-- `Common::g_data_pipe_name`. -/
def gDataPipeName : String := "\\\\.\\pipe\\DataPipe_"

/-- `Common::g_control_pipe_name`. -/
def gControlPipeName : String := "\\\\.\\pipe\\ControlPipe_"

/-- The pipe `ConnectAndSendJson` opens for a packet type: the pipe name of the type followed
by the parent's process id.  Each enumerator replaces the initial `g_log_pipe_name`. -/
def pipeNameOf (fatherProcessId : String) : PipeType → String
  | .LOG => gLogPipeName ++ fatherProcessId
  | .DATA => gDataPipeName ++ fatherProcessId
  | .CONTROL => gControlPipeName ++ fatherProcessId

/-- The globals `ConnectAndSendJson` uses, and the packets written, each with its pipe. -/
structure PipeState where
  fatherProcessId : String
  logCache : Bytes
  written : List (String × Value)
  deriving Repr

/-- `Common::CreateLogHeader`: `g_log_cache += log_info`. -/
def createLogHeader (state : PipeState) (logInfo : Bytes) : PipeState :=
  { state with logCache := state.logCache ++ logInfo }

/-- The packet `ConnectAndSendJson` goes on to send: for the log pipe,
`jsonData["message_content"] = g_log_cache + jsonData["message_content"].get<std::string>();`,
whose right side is read first (C++17 evaluates the right operand of `=` first); any other
packet as it was passed. -/
def preparePacket (logCache : Bytes) (pipeType : PipeType) (jsonData : Value) : Except TypeError Value :=
  if pipeType = .LOG then do
    let content ← (← jsonData.index (bytesOf "message_content")).getString
    jsonData.assign (bytesOf "message_content") (.string (logCache ++ content))
  else .ok jsonData

/-- The rest of `ConnectAndSendJson` once the packet is prepared: after a successful open the
cache is cleared and the packet dumped; a throw of `dump()` leaves the cache cleared and writes
nothing, and otherwise the packet is written if `WriteFile` succeeds. -/
def sendPrepared (state : PipeState) (pipeType : PipeType) (jsonData : Value) (opened writeOk : Bool) :
    PipeState × Option TypeError :=
  if opened then
    let state := { state with logCache := [] }
    match jsonData.dump with
    | .error error => (state, some error)
    | .ok () =>
      ({ state with
        written := if writeOk then state.written ++ [(pipeNameOf state.fatherProcessId pipeType, jsonData)]
          else state.written }, none)
  else (state, none)

/-- `Common::ConnectAndSendJson` in the Windows build, with the globals after the call and the
`type_error` it throws, if any.  With a parent process, the packet is prepared before the pipe
is opened, and a throw there leaves the globals as they were. -/
def connectAndSendJson (state : PipeState) (pipeType : PipeType) (jsonData : Value)
    (opened writeOk : Bool) : PipeState × Option TypeError :=
  if state.fatherProcessId = "-1" then (state, none)
  else
    match preparePacket state.logCache pipeType jsonData with
    | .error error => (state, some error)
    | .ok jsonData => sendPrepared state pipeType jsonData opened writeOk

/-- A call of one of the two functions, with the outcome of opening the pipe and of
`WriteFile`. -/
inductive Call where
  | createLogHeader (logInfo : Bytes)
  | connectAndSendJson (pipeType : PipeType) (jsonData : Value) (opened writeOk : Bool)

/-- One call, with the globals after it and what it threw. -/
def step (state : PipeState) : Call → PipeState × Option TypeError
  | .createLogHeader logInfo => (createLogHeader state logInfo, none)
  | .connectAndSendJson pipeType jsonData opened writeOk =>
    connectAndSendJson state pipeType jsonData opened writeOk

/-- A sequence of calls, in order, up to the first throw: the globals then, and the exception
if one was thrown. -/
def run (state : PipeState) : List Call → PipeState × Option TypeError
  | [] => (state, none)
  | call :: calls =>
    match step state call with
    | (state', none) => run state' calls
    | thrown => thrown

end Json

end SynthesisRepo.LogPipe
