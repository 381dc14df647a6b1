import Hps.Http.RequestGrammar

/-!
# Uri — the grammar

The rules of `uri.rl`, and its machine: what may still come of every rule
that is being read, and on every byte the actions of the transition in the
order in which they run. An action that two rules put on one transition runs
once, where the first of them has it.

One rule does not say what its notation suggests: in `dec_octet`, the `2`
without quotes is the byte 2.
-/

namespace Hps.UriParser

open RegularExpression Hps.Lib
open Hps.Http (ch text alpha digit xdigit ascii)
open Hps.Http.Request.IP (Re oneOf lit opt dead)

/-! ## Rules -/

def subDelims : Re := oneOf fun c => (text "!$&'()*+,;=").contains c

def unreserved : Re := oneOf fun c => alpha c || digit c || (text "-._~").contains c

def pctEncoded : Re := lit '%' * oneOf xdigit * oneOf xdigit

/-- `r+` -/
def oneOrMore (r : Re) : Re := r * star r

def scheme : Re :=
  oneOf alpha * star (oneOf fun c => alpha c || digit c || (text "+-.").contains c)

def userinfo : Re := star (unreserved + pctEncoded + subDelims + lit ':')

def decOctet : Re :=
  oneOf digit + oneOf (fun c => digit c && c != ch '0') * oneOf digit
    + lit '1' * oneOf digit * oneOf digit
    + char 2 * oneOf (fun c => ch '0' ≤ c && c ≤ ch '4') * oneOf digit
    + lit '2' * lit '5' * oneOf fun c => ch '0' ≤ c && c ≤ ch '5'

def ipv4address : Re :=
  decOctet * lit '.' * decOctet * lit '.' * decOctet * lit '.' * decOctet

def h16 : Re :=
  oneOf xdigit * opt (oneOf xdigit) * opt (oneOf xdigit) * opt (oneOf xdigit)

def ls32 : Re := h16 * lit ':' * h16 + ipv4address

/-- `h16 ":"` -/
def group : Re := h16 * lit ':'

/-- `"::"` -/
def gap : Re := lit ':' * lit ':'

/-- `((h16 ":"){n} h16)?` -/
def before (n : Nat) : Re := opt (group ^ n * h16)

def ipv6address : Re :=
  group ^ 6 * ls32
    + gap * group ^ 5 * ls32
    + before 0 * gap * group ^ 4 * ls32
    + before 1 * gap * group ^ 3 * ls32
    + before 2 * gap * group ^ 2 * ls32
    + before 3 * gap * group ^ 1 * ls32
    + before 4 * gap * ls32
    + before 5 * gap * h16
    + before 6 * gap

def ipvFuture : Re :=
  lit 'v' * oneOrMore (oneOf xdigit) * lit '.' * oneOrMore (unreserved + subDelims + lit ':')

def ipLiteral : Re := lit '[' * (ipv6address + ipvFuture) * lit ']'

def regName : Re := star (unreserved + pctEncoded + subDelims)

def host : Re := ipLiteral + ipv4address + regName

def port : Re := star (oneOf digit)

/-- `pchar - ":"` -/
def pcharNc : Re :=
  oneOf (fun c => !ascii c) + unreserved + pctEncoded + subDelims + lit '@'

def pchar : Re := pcharNc + lit ':'

def segment : Re := star pchar

/-- `("/" segment)*` -/
def segments : Re := star (lit '/' * segment)

def pathAbempty : Re := opt (lit '/' * segment) * segments

/-- `path_absolute` behind its slash. -/
def pathAbsolute : Re := opt (oneOrMore pchar * segments)

def pathNoscheme : Re := oneOrMore pcharNc * segments

def pathRootless : Re := oneOrMore pchar * segments

/-- `query` and `fragment` are the same rule. -/
def query : Re := star (pchar + lit '/' + lit '?')

/-! ## The machine -/

inductive Action where
  | marku | markh | saveScheme | savePort | saveUserinfo | saveHost
  | savePath | saveQuery | saveFragment
  deriving DecidableEq, Repr

/-- Where the machine stands. A rule that cannot be read on has nothing to
come that matches; `absolute` says that a scheme was read, and `fresh` that
no byte of the rule was. -/
inductive State where
  | start
  /-- a scheme, or the first segment of `path_noscheme` -/
  | scheme (rest other : Re)
  /-- behind the `:` of the scheme -/
  | hierPart
  /-- behind a first `/` -/
  | slash (absolute : Bool)
  /-- a `host`, or a `userinfo` -/
  | authority (absolute fresh : Bool) (user rest : Re)
  /-- a `port`, or still a `userinfo` -/
  | port (absolute fresh : Bool) (user rest : Re)
  /-- a path, which is saved behind an authority of an `URI` -/
  | path (saved : Bool) (rest : Re)
  | query (fresh : Bool) (rest : Re)
  | fragment (fresh : Bool) (rest : Re)

/-- The state behind a byte, without actions. -/
def goto (rest : Re) (q : Re → State) : Option (State × List Action) :=
  if dead rest then none else some (q rest, [])

/-- A transition takes these actions first. -/
def after (as : List Action) (t : Option (State × List Action)) :
    Option (State × List Action) :=
  t.map fun t => (t.1, as ++ t.2)

/-- The actions at the end of a path. -/
def leavePath (saved : Bool) : List Action := if saved then [.savePath] else []

def pathNext (saved : Bool) (rest : Re) (c : UInt8) : Option (State × List Action) :=
  if c = ch '?' then
    if rest.matchEpsilon then some (.query true UriParser.query, leavePath saved) else none
  else if c = ch '#' then
    if rest.matchEpsilon then some (.fragment true UriParser.query, leavePath saved) else none
  else goto (rest.deriv c) (.path saved)

/-- The actions between a part of the authority, which `save` saves, and the
path behind it: `markh` is on both, and runs once. -/
def leaveAuthority (absolute fresh : Bool) (save : Action) : List Action :=
  if fresh then [.markh, save] else if absolute then [save, .markh] else [save]

/-- A byte behind a part of the authority. -/
def authorityNext (absolute fresh : Bool) (save : Action) (rest : Re) (c : UInt8) :
    Option (State × List Action) :=
  if rest.matchEpsilon then
    after (leaveAuthority absolute fresh save) (pathNext absolute pathAbempty c)
  else none

def next : State → UInt8 → Option (State × List Action)
  | .start, c =>
      if c = ch '/' then some (.slash false, [])
      else if alpha c then
        some (.scheme (UriParser.scheme.deriv c) (pathNoscheme.deriv c), [.marku])
      else pathNext false (opt pathNoscheme) c
  | .scheme rest other, c =>
      if c = ch ':' then some (.hierPart, [.saveScheme])
      else if dead (rest.deriv c) then pathNext false other c
      else some (.scheme (rest.deriv c) (other.deriv c), [])
  | .hierPart, c =>
      if c = ch '/' then some (.slash true, []) else pathNext false (opt pathRootless) c
  | .slash absolute, c =>
      if c = ch '/' then some (.authority absolute true userinfo host, [])
      else pathNext false pathAbsolute c
  | .authority absolute fresh user rest, c =>
      let enter := if fresh then [.markh] else []
      if c = ch '@' then
        if user.matchEpsilon then
          some (.authority absolute true 0 host, enter ++ [.saveUserinfo])
        else none
      else if c = ch ':' ∧ rest.matchEpsilon then
        some (.port absolute true (user.deriv c) UriParser.port, enter ++ [.saveHost])
      else if c = ch '/' ∨ c = ch '?' ∨ c = ch '#' then
        authorityNext absolute fresh .saveHost rest c
      else if dead (user.deriv c) ∧ dead (rest.deriv c) then none
      else some (.authority absolute false (user.deriv c) (rest.deriv c), enter)
  | .port absolute fresh user rest, c =>
      if c = ch '@' then
        if user.matchEpsilon then some (.authority absolute true 0 host, [.saveUserinfo])
        else none
      else if c = ch '/' ∨ c = ch '?' ∨ c = ch '#' then
        authorityNext absolute fresh .savePort rest c
      else if dead (rest.deriv c) then
        goto (user.deriv c) fun user => .authority absolute false user 0
      else
        some (.port absolute false (user.deriv c) (rest.deriv c), if fresh then [.markh] else [])
  | .path saved rest, c => pathNext saved rest c
  | .query fresh rest, c =>
      let enter := if fresh then [.marku] else []
      if c = ch '#' then
        if rest.matchEpsilon then
          some (.fragment true UriParser.query, enter ++ [.saveQuery])
        else none
      else after enter (goto (rest.deriv c) (.query false))
  | .fragment fresh rest, c =>
      after (if fresh then [.marku] else []) (goto (rest.deriv c) (.fragment false))

/-- The actions at the end of the text, where the text may end. -/
def State.leave : State → Option (List Action)
  | .start | .hierPart | .slash _ => some []
  | .scheme _ other => if other.matchEpsilon then some [] else none
  | .authority absolute fresh _ rest =>
      if rest.matchEpsilon then
        some (leaveAuthority absolute fresh .saveHost ++ leavePath absolute)
      else none
  | .port absolute fresh _ rest =>
      if rest.matchEpsilon then
        some (leaveAuthority absolute fresh .savePort ++ leavePath absolute)
      else none
  | .path saved rest => if rest.matchEpsilon then some (leavePath saved) else none
  | .query fresh rest =>
      if rest.matchEpsilon then some ((if fresh then [.marku] else []) ++ [.saveQuery])
      else none
  | .fragment fresh rest =>
      if rest.matchEpsilon then some ((if fresh then [.marku] else []) ++ [.saveFragment])
      else none

/-- `uri_parser`; no action stops it. -/
def machine : Machine State UInt8 Action where
  next := next
  stops _ := false

end Hps.UriParser
