import Mathlib.Data.List.Basic
import Mathlib.Algebra.Group.Int

/-! # The log pipe client

Two parts of `libs/utils/log_pipe/common.cc` and its header.

`Common::CreateLogHeader` and `Common::ConnectAndSendJson`, in the Windows build: header
text accumulates in the global `g_log_cache` and is prepended to the `message_content` of
the next log packet. Opening the named pipe and `WriteFile` are the environment's: each
call takes their outcome as an input.  A written packet is kept with the cache text it
carried apart from the caller's content, so that where the header text went can be stated.

`LogData::CreateLogStruct` and `Common::GetNextIndex`: every log record gets the category
label `[<category> <value>-<index>]`, where the index is the next value of a per-category
counter in the global map `Common::indices`.  The enumerations keep the values the header
gives them; the counter is a C++ `int`.
-/

namespace SynthesisRepo.LogPipe

/-- `enum class PipeType`. -/
inductive PipeType where
  | LOG | DATA | CONTROL
  deriving DecidableEq, Repr

/-- A packet written to a pipe: its pipe type, the cache text prepended to its
`message_content` (empty unless it is a log packet), and the caller's content. -/
structure Packet where
  pipeType : PipeType
  cachePrefix : String
  content : String
  deriving DecidableEq, Repr

/-- The globals the two functions use, and what the parent process has read. -/
structure PipeState where
  fatherProcessId : String
  logCache : String
  written : List Packet
  deriving DecidableEq, Repr

/-- A call of one of the two functions, with the outcome of opening the pipe
(`CreateFileW` not returning `INVALID_HANDLE_VALUE`) and of `WriteFile`. -/
inductive Call where
  | createLogHeader (logInfo : String)
  | connectAndSendJson (pipeType : PipeType) (content : String) (opened writeOk : Bool)
  deriving DecidableEq, Repr

/-- `Common::CreateLogHeader`: `g_log_cache += log_info`. -/
def createLogHeader (state : PipeState) (logInfo : String) : PipeState :=
  { state with logCache := state.logCache ++ logInfo }

/-- `Common::ConnectAndSendJson` in the Windows build: with a parent process, a log packet
takes the cache as a prefix; after a successful open the cache is cleared, whatever the
pipe type and before the write is known to succeed. -/
def connectAndSendJson (state : PipeState) (pipeType : PipeType) (content : String)
    (opened writeOk : Bool) : PipeState :=
  if state.fatherProcessId = "-1" ∨ !opened then state
  else
    let cachePrefix := if pipeType = .LOG then state.logCache else ""
    { state with
      logCache := ""
      written := if writeOk then state.written ++ [⟨pipeType, cachePrefix, content⟩]
        else state.written }

/-- One call. -/
def step (state : PipeState) : Call → PipeState
  | .createLogHeader logInfo => createLogHeader state logInfo
  | .connectAndSendJson pipeType content opened writeOk =>
    connectAndSendJson state pipeType content opened writeOk

/-- A sequence of calls, in order. -/
def run (state : PipeState) (calls : List Call) : PipeState := calls.foldl step state

/-- The header text of a sequence of calls, in order. -/
def headerText : List Call → String
  | [] => ""
  | .createLogHeader logInfo :: calls => logInfo ++ headerText calls
  | .connectAndSendJson .. :: calls => headerText calls

/-- The cache text carried by the log packets of `packets`, in order. -/
def deliveredOf : List Packet → String
  | [] => ""
  | packet :: packets =>
    (if packet.pipeType = .LOG then packet.cachePrefix else "") ++ deliveredOf packets

/-- The cache text the parent process has received. -/
def deliveredText (state : PipeState) : String := deliveredOf state.written

/-! ## Log records and their category labels -/

/-- `enum class LevelCode`. -/
inductive LevelCode where
  | ALWAYS_LOG | INFO_LOG | WARNING_LOG | CRITICAL_LOG | ERROR_LOG
  deriving DecidableEq, Repr

/-- `static_cast<int>` of a `LevelCode`, with the header's values. -/
def LevelCode.toInt : LevelCode → Int
  | .ALWAYS_LOG => 0
  | .INFO_LOG => 1
  | .WARNING_LOG => 2
  | .CRITICAL_LOG => 3
  | .ERROR_LOG => 4

/-- `enum class LogCategory`. -/
inductive LogCategory where
  | PROJECT | CORETCL | SYNTHESIS | COMMON | IP_FLOW | DESIGNUTILS | DEVICE | NETLIST
  deriving DecidableEq, Repr

/-- `static_cast<int>` of a `LogCategory`, with the header's values. -/
def LogCategory.toInt : LogCategory → Int
  | .PROJECT => 1
  | .CORETCL => 2
  | .SYNTHESIS => 8
  | .COMMON => 17
  | .IP_FLOW => 19
  | .DESIGNUTILS => 20
  | .DEVICE => 21
  | .NETLIST => 22

/-- `PipeTypeToString`. -/
def pipeTypeToString : PipeType → String
  | .LOG => "log"
  | .DATA => "data"
  | .CONTROL => "control"

/-- `LogCategoryToString`.  Its `Invalid LogCategory value` branch is unreachable for
the eight enumerators. -/
def logCategoryToString : LogCategory → String
  | .PROJECT => "Project"
  | .CORETCL => "CoreTCL"
  | .SYNTHESIS => "Synthesis"
  | .COMMON => "Common"
  | .IP_FLOW => "IP_Flow"
  | .DESIGNUTILS => "DesignUtils"
  | .DEVICE => "Device"
  | .NETLIST => "Netlist"

/-- `struct LogData`; the field defaults are what its constructor assigns. -/
structure LogData where
  pipeType : String := pipeTypeToString .LOG
  levelCode : Int := LevelCode.INFO_LOG.toInt
  messageContent : String := ""
  phase : String := "SYNTHESIS"
  subPhase : String := "SYNTHESIS"
  category : String := ""
  taskInfo : String := ""
  deriving DecidableEq, Repr

/-- `Common::indices`, a `std::map<std::string, int>` read through `operator[]`, which
gives `0` for a key not yet in the map. -/
abbrev Indices := String → Int

/-- The map of a process that has not yet numbered a message. -/
def Indices.empty : Indices := fun _ => 0

/-- A C++ `int` result: the 32-bit two's complement value of `n`.  Signed overflow is
undefined in C++; this is the wrapping the compiled increment performs. -/
def wrapInt (n : Int) : Int := n.bmod (2 ^ 32)

/-- `Common::GetNextIndex`: `return ++indices[key];`, with the map after the call. -/
def getNextIndex (indices : Indices) (messagelabel : String) : Int × Indices :=
  let next := wrapInt (indices messagelabel + 1)
  (next, Function.update indices messagelabel next)

/-- The category label `CreateLogStruct` builds from the category and its index. -/
def logLabel (categoryInfo : LogCategory) (index : Int) : String :=
  "[" ++ logCategoryToString categoryInfo ++ " " ++ toString categoryInfo.toInt ++ "-" ++
    toString index ++ "]"

/-- `LogData::CreateLogStruct`, with the map after the call. -/
def createLogStruct (indices : Indices) (levelCode : LevelCode) (categoryInfo : LogCategory)
    (taskInfo : String) : LogData × Indices :=
  let (index, indices) := getNextIndex indices (logCategoryToString categoryInfo)
  ({ ({} : LogData) with
      category := logLabel categoryInfo index
      pipeType := pipeTypeToString .LOG
      levelCode := levelCode.toInt
      phase := "SYNTHESIS"
      subPhase := "SYNTHESIS"
      taskInfo := taskInfo }, indices)

/-- A call that reads or writes `Common::indices`. -/
inductive LogCall where
  | createLogStruct (levelCode : LevelCode) (categoryInfo : LogCategory) (taskInfo : String)
  | getNextIndex (messagelabel : String)
  deriving DecidableEq, Repr

/-- The category a call numbers a record of, if it is a `CreateLogStruct` call. -/
def LogCall.categoryInfo? : LogCall → Option LogCategory
  | .createLogStruct _ categoryInfo _ => some categoryInfo
  | .getNextIndex _ => none

/-- A sequence of calls, in order: the records `CreateLogStruct` returned and the map
after the last call. -/
def runLogCalls : Indices → List LogCall → List LogData × Indices
  | indices, [] => ([], indices)
  | indices, .createLogStruct levelCode categoryInfo taskInfo :: calls =>
    let (data, indices) := createLogStruct indices levelCode categoryInfo taskInfo
    let (records, indices) := runLogCalls indices calls
    (data :: records, indices)
  | indices, .getNextIndex messagelabel :: calls =>
    runLogCalls (getNextIndex indices messagelabel).2 calls

end SynthesisRepo.LogPipe
