import Librefw.Client.Model.Hcf
import Librefw.Kernel.Model.Log

/-!
# The client's view of the log

`log.cpp`: what the listener prints for a message of the log.
-/

namespace Librefw

/-- `level_str`. -/
def levelStr : List String :=
  ["EMERGENCY", "ALERT", "CRITICAL", "ERROR", "WARNING", "NOTICE", "INFO", "DEBUG"]

/-- `nla_get_u64`, which reads nothing from an attribute that is missing or short. -/
def nlaGetU64 (e : Endian) (a : Option NlAttr) : U64 :=
  match a with
  | none => 0
  | some a => if 8 ≤ a.len then a.getU64 e else 0

/-- A line as it is printed: the name of the level, the second and the text. -/
def logLine (level : String) (timestamp : U64) (message : List U8) : List U8 :=
  asciiBytes level ++ asciiBytes " " ++ decimalBytes timestamp.toNat ++ asciiBytes " " ++ message

/-- `LogListener::on_message_received`: what it prints, if the message has a text. -/
def logOnMessageReceived (e : Endian) (info : GenlInfo) : Except Fault (Option (List U8)) :=
  match info.attrs e LFW_NLA_LOG_MSG with
  | none => pure none
  | some msg => do
    let message ← cstr msg.mem
    let timestamp := nlaGetU64 e (info.attrs e LFW_NLA_LOG_TS)
    let lvl ← parseArgs e info LFW_NLA_LOG_LVL
    match levelStr[lvl.getU8.toNat]? with
    | none => throw (.outOfBounds lvl.getU8.toNat)
    | some level => pure (some (logLine level timestamp message.chars))

/-- What a listener prints of what is said, if it is sent. -/
def logShown (e : Endian) (pad allocated : Bool) (tv_sec : U64) (level : U8) (fmt : List FmtPiece)
    (rest : List U8) : Except Fault (Option (List U8)) := do
  match ← lfwLog e pad allocated tv_sec level fmt with
  | (_, .error _) => pure none
  | (_, .ok msg) => logOnMessageReceived e (genlAttrs msg rest)

end Librefw
