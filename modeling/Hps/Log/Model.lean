import Mathlib.Data.List.Basic

/-!
# Log — levels, patterns, appenders and loggers

The part of `log.cc` that a configuration reaches: the levels, the parser of
formatter patterns, and the loggers with their appenders. A pointer to a
formatter is the formatter: nobody changes one after it is made.
-/

namespace Hps.Log

/-- A `std::string`. -/
abbrev Text := List UInt8

/-- The bytes of an ASCII text. -/
def text (s : String) : Text := s.toList.map Char.toUInt8

/-- A string as a function of C reads it. -/
def cString (s : Text) : Text := s.takeWhile (· != 0)

inductive Level where
  | UNKNOW | DEBUG | INFO | WARN | ERROR | FATAL
  deriving DecidableEq, Repr

/-- The value of the enumerator. -/
def Level.value : Level → Nat
  | .UNKNOW => 0
  | .DEBUG => 1
  | .INFO => 2
  | .WARN => 3
  | .ERROR => 4
  | .FATAL => 5

/-- `LogLevel::ToString` -/
def Level.toString : Level → Text
  | .DEBUG => text "DEBUG"
  | .INFO => text "INFO"
  | .WARN => text "WARN"
  | .ERROR => text "ERROR"
  | .FATAL => text "FATAL"
  | .UNKNOW => text "UNKNOW"

/-! ## Patterns -/

/-- The classes derived from `FormatItem` that take a directive's place. -/
inductive Directive where
  | message | level | elapse | name | threadId | newLine | dateTime | filename
  | line | tab | fiberId | threadName
  deriving DecidableEq, Repr

inductive FormatItem where
  | string (s : Text)
  | directive (c : Directive) (fmt : Text)
  deriving DecidableEq, Repr

/-- `s_format_items` -/
def formatItems : List (Text × Directive) :=
  [(text "m", .message), (text "p", .level), (text "r", .elapse),
   (text "c", .name), (text "t", .threadId), (text "n", .newLine),
   (text "d", .dateTime), (text "f", .filename), (text "l", .line),
   (text "T", .tab), (text "F", .fiberId), (text "N", .threadName)]

def isAlpha (c : UInt8) : Bool := (65 ≤ c && c ≤ 90) || (97 ≤ c && c ≤ 122)

/-- From a `{` on: the text up to the `}`, and what follows it; `none` if
there is no `}`. -/
def findClose (fmt : Text) : Text → Option (Text × Text)
  | [] => none
  | c :: cs => if c = 125 then some (fmt, cs) else findClose (fmt ++ [c]) cs

/-- The inner loop of `init`, from behind a `%` on: the name, the format and
what follows; `none` if it ends with `fmt_status` 1. -/
def findDirective (str : Text) : Text → Option (Text × Text × Text)
  | [] => some (str, [], [])
  | c :: cs =>
      if c = 123 then (findClose [] cs).map fun (fmt, rest) => (str, fmt, rest)
      else if ¬isAlpha c ∧ c ≠ 125 then some (str, [], c :: cs)
      else findDirective (str ++ [c]) cs

/-- The outer loop of `init`: the entries of `vec`, of which those with a
`true` are directives. Every turn takes a character or more, so that one turn
more than there are characters is enough. -/
def parsePattern : Nat → Text → Text → List (Text × Text × Bool) × Bool
  | 0, _, _ => ([], false)
  | _ + 1, nstr, [] => (if nstr = [] then [] else [(nstr, [], false)], false)
  | fuel + 1, nstr, c :: cs =>
      if c ≠ 37 then parsePattern fuel (nstr ++ [c]) cs
      else if cs.head? = some 37 then parsePattern fuel (nstr ++ [37]) cs
      else
        match findDirective [] cs with
        | some (str, fmt, rest) =>
            let (vec, error) := parsePattern fuel [] rest
            ((if nstr = [] then [] else [(nstr, [], false)]) ++
              (str, fmt, true) :: vec, error)
        | none =>
            let (vec, _) := parsePattern fuel nstr cs
            ((text "<<pattern_error>>", [], false) :: vec, true)

structure LogFormatter where
  pattern : Text
  items : List FormatItem
  error : Bool
  deriving DecidableEq

/-- An entry of `vec` as an item. -/
def toItem : Text × Text × Bool → FormatItem
  | (str, _, false) => .string str
  | (str, fmt, true) =>
      match formatItems.find? fun x => x.1 = str with
      | some (_, c) => .directive c fmt
      | none => .string (text "<<error_format %" ++ str ++ text ">>")

/-- The constructor, which runs `init`. -/
def LogFormatter.new (pattern : Text) : LogFormatter :=
  let (vec, error) := parsePattern (pattern.length + 1) [] pattern
  { pattern
    items := vec.map toItem
    error := error || vec.any fun (str, _, directive) =>
      directive && (formatItems.find? fun x => x.1 = str).isNone }

/-- The pattern of a new logger. -/
def defaultPattern : Text :=
  text "%d{%Y-%m-%d %H:%M:%S}%T%t%T%N%T%F%T[%p]%T[%c]%T%f:%l%T%m%n"

/-! ## Appenders and loggers -/

/-- `StdoutLogAppender`, or `FileLogAppender` with its file name. -/
inductive AppenderKind where
  | file (filename : Text)
  | stdout
  deriving DecidableEq

/-- `formatter` is `none` for the null pointer. -/
structure LogAppender where
  kind : AppenderKind
  level : Level := .DEBUG
  hasFormatter : Bool := false
  formatter : Option LogFormatter := none
  deriving DecidableEq

namespace LogAppender

def setLevel (a : LogAppender) (val : Level) : LogAppender := { a with level := val }

def setFormatter (a : LogAppender) (val : Option LogFormatter) : LogAppender :=
  { a with formatter := val, hasFormatter := val.isSome }

end LogAppender

structure Logger where
  level : Level := .DEBUG
  formatter : LogFormatter := .new defaultPattern
  appenders : List LogAppender := []
  deriving DecidableEq

namespace Logger

def addAppender (l : Logger) (a : LogAppender) : Logger :=
  let a := if a.formatter.isNone then { a with formatter := some l.formatter } else a
  { l with appenders := l.appenders ++ [a] }

def clearAppenders (l : Logger) : Logger := { l with appenders := [] }

def setLevel (l : Logger) (val : Level) : Logger := { l with level := val }

/-- `setFormatter(LogFormatter::ptr)` -/
def setFormatterPtr (l : Logger) (val : LogFormatter) : Logger :=
  { l with
    formatter := val
    appenders := l.appenders.map fun a =>
      if a.hasFormatter then a else { a with formatter := some val } }

/-- `setFormatter(const std::string &)` -/
def setFormatter (l : Logger) (val : Text) : Logger :=
  if (LogFormatter.new val).error then l else l.setFormatterPtr (.new val)

end Logger

/-- `m_loggers` of `LoggerManager`. -/
abbrev Loggers := Text → Option Logger

/-- The constructor: only the root logger. -/
def Loggers.new : Loggers := fun name =>
  if name = text "root" then some (Logger.addAppender {} { kind := .stdout }) else none

/-- What `getLogger(name)` returns: a new logger if there is none. -/
def Loggers.getLogger (ls : Loggers) (name : Text) : Logger := (ls name).getD {}

/-- Writes through the pointer that `getLogger(name)` returned. -/
def Loggers.put (ls : Loggers) (name : Text) (l : Logger) : Loggers := fun n =>
  if n = name then some l else ls n

end Hps.Log
