import Hps.Http.ResponseParser
import Hps.Uri.Grammar

/-!
# Uri — the class

The actions of `uri.rl` and `Uri::Create`. Between the `mark` and the byte an
action is taken on lies the text that it saves; every part of an URI is
marked by the one pointer.
-/

namespace Hps

open Hps.Lib
open Hps.Http (text atoi)

structure Uri where
  scheme : List UInt8 := []
  userinfo : List UInt8 := []
  host : List UInt8 := []
  path : List UInt8 := []
  query : List UInt8 := []
  fragment : List UInt8 := []
  port : Int := 0
  deriving DecidableEq

namespace Uri

def setScheme (u : Uri) (v : List UInt8) : Uri := { u with scheme := v }

def setUserinfo (u : Uri) (v : List UInt8) : Uri := { u with userinfo := v }

def setHost (u : Uri) (v : List UInt8) : Uri := { u with host := v }

def setPath (u : Uri) (v : List UInt8) : Uri := { u with path := v }

def setQuery (u : Uri) (v : List UInt8) : Uri := { u with query := v }

def setFragment (u : Uri) (v : List UInt8) : Uri := { u with fragment := v }

def setPort (u : Uri) (v : Int) : Uri := { u with port := v }

def getScheme (u : Uri) : List UInt8 := u.scheme

def getUserinfo (u : Uri) : List UInt8 := u.userinfo

def getHost (u : Uri) : List UInt8 := u.host

def getPath (u : Uri) : List UInt8 := if u.path = [] then text "/" else u.path

def getQuery (u : Uri) : List UInt8 := u.query

def getFragment (u : Uri) : List UInt8 := u.fragment

def getPort (u : Uri) : Int :=
  if u.port ≠ 0 then u.port
  else if u.scheme = text "http" ∨ u.scheme = text "ws" then 80
  else if u.scheme = text "https" ∨ u.scheme = text "wss" then 443
  else u.port

end Uri

namespace UriParser

/-! ## Actions -/

/-- What ends `Create` otherwise than by a return. -/
inductive Fault where
  /-- `std::string` of a null pointer throws `std::logic_error` -/
  | logicError
  /-- `atoi` of a null pointer -/
  | nullPointer
  deriving DecidableEq, Repr

/-- The variables of `Create` that the actions use; `mark` is an offset into
the text, or the null pointer. -/
structure Scan where
  mark : Option Nat
  uri : Except Fault Uri

/-- The text from `ptr` to before `fpc`. -/
def slice (mem : List UInt8) (ptr fpc : Nat) : List UInt8 := (mem.drop ptr).take (fpc - ptr)

/-- `set(std::string(mark, fpc - mark))` -/
def Scan.save (mem : List UInt8) (set : Uri → List UInt8 → Uri) (fpc : Nat) (s : Scan) : Scan :=
  { s with
    uri := s.uri.bind fun u =>
      match s.mark with
      | none => .error .logicError
      | some ptr => .ok (set u (slice mem ptr fpc)) }

def Scan.setMark (m : Option Nat) (s : Scan) : Scan := { s with mark := m }

/-- `if(mark) set(std::string(mark, fpc - mark))` -/
def Scan.saveMarked (mem : List UInt8) (set : Uri → List UInt8 → Uri) (fpc : Nat) (s : Scan) :
    Scan :=
  if s.mark.isSome then s.save mem set fpc else s

/-- `if(fpc != mark) setPort(atoi(mark))` -/
def Scan.savePort (mem : List UInt8) (fpc : Nat) (s : Scan) : Scan :=
  if s.mark = some fpc then s
  else
    { s with
      uri := s.uri.bind fun u =>
        match s.mark with
        | none => .error .nullPointer
        | some ptr => .ok (u.setPort (atoi (mem.drop ptr))) }

/-- An action at `fpc`; nothing is called back. -/
def act (mem : List UInt8) (a : Action) (fpc : Nat) (s : Scan) : Scan × List Empty :=
  match a with
  | .marku => (s.setMark (some fpc), [])
  | .markh => (s.setMark (some fpc), [])
  | .saveScheme => ((s.save mem Uri.setScheme fpc).setMark none, [])
  | .savePort => ((s.savePort mem fpc).setMark none, [])
  | .saveUserinfo => ((s.saveMarked mem Uri.setUserinfo fpc).setMark none, [])
  | .saveHost => (s.saveMarked mem Uri.setHost fpc, [])
  | .savePath => ((s.save mem Uri.setPath fpc).setMark none, [])
  | .saveQuery => ((s.save mem Uri.setQuery fpc).setMark none, [])
  | .saveFragment => ((s.save mem Uri.setFragment fpc).setMark none, [])

end UriParser

open UriParser

/-- `Uri::Create(uristr)`, the null pointer being `none`. -/
def Uri.create (uristr : List UInt8) : Except Fault (Option Uri) :=
  let o := machine.exec (act uristr) .start 0 ⟨none, .ok {}⟩ uristr
  match o.ending with
  | .failed => o.regs.uri.map fun _ => none
  | .running q | .stopped q =>
      match q.leave with
      | none => o.regs.uri.map fun _ => none
      | some as => (acts (act uristr) o.pos as o.regs).1.uri.map some

end Hps
