import Hps.Http.ResponseParts
import Hps.Uri.Components

/-!
# Uri — URIs as text

`Uri::dump` writes the members of an URI without what was in its text beside
them: a port that is the default one, the signs of parts that are empty. What
was read of a text is the text of an URI again (`toString_read`), and reading
it gives the same URI unless its userinfo looks like a port
(`create_toString_iff`).
-/

namespace Hps

open Hps.Lib
open Hps.Http (ch text decimal digit)

namespace Uri

/-- `isDefaultPort()` -/
def isDefaultPort (u : Uri) : Bool :=
  if u.port = 0 then true
  else if u.scheme = text "http" ∨ u.scheme = text "ws" then u.port == 80
  else if u.scheme = text "https" ∨ u.scheme = text "wss" then u.port == 443
  else false

/-- `std::to_string` of an `int32_t`. -/
def toStringInt (n : Int) : List UInt8 :=
  if n < 0 then ch '-' :: decimal (-n).toNat else decimal n.toNat

/-- `dump(os)` and `toString()` -/
def toString (u : Uri) : List UInt8 :=
  u.scheme ++ text "://" ++ u.userinfo ++
    (if u.userinfo = [] then [] else text "@") ++
    u.host ++
    (if u.isDefaultPort then [] else text ":" ++ toStringInt u.port) ++
    u.getPath ++
    (if u.query = [] then [] else text "?") ++ u.query ++
    (if u.fragment = [] then [] else text "#") ++ u.fragment

/-- An URI with its path as it is written, and without a default port. -/
def normal (u : Uri) : Uri :=
  { u with path := u.getPath, port := if u.isDefaultPort then 0 else u.port }

/-! ## The members of a normal URI -/

section Normal

variable (u : Uri)

theorem getPath_ne (u : Uri) : u.getPath ≠ [] := by
  rw [getPath]
  split
  · decide
  · assumption

@[simp] theorem getPath_normal : u.normal.getPath = u.getPath :=
  if_neg u.getPath_ne

theorem getPort_of_default (h : u.isDefaultPort = true) :
    u.getPort = if u.scheme = text "http" ∨ u.scheme = text "ws" then 80
      else if u.scheme = text "https" ∨ u.scheme = text "wss" then 443 else 0 := by
  rw [isDefaultPort] at h
  rw [getPort]
  split_ifs at h ⊢ <;> simp_all

@[simp] theorem getPort_normal : u.normal.getPort = u.getPort := by
  cases h : u.isDefaultPort with
  | true =>
      rw [u.getPort_of_default h, normal, h]
      rfl
  | false => simp [getPort, normal, h]

@[simp] theorem isDefaultPort_normal : u.normal.isDefaultPort = u.isDefaultPort := by
  cases h : u.isDefaultPort with
  | true =>
      have hport : u.normal.port = 0 := if_pos h
      rw [isDefaultPort, if_pos hport]
  | false =>
      have hport : u.normal.port = u.port := if_neg (by simp [h])
      rw [isDefaultPort, hport]
      exact h

/-- A normal URI has the text of the one that it comes from. -/
theorem toString_normal : u.normal.toString = u.toString := by
  have hport : (if u.normal.isDefaultPort then [] else text ":" ++ toStringInt u.normal.port) =
      if u.isDefaultPort then [] else text ":" ++ toStringInt u.port := by
    rw [isDefaultPort_normal]
    cases h : u.isDefaultPort with
    | true => rfl
    | false => simp [normal, h]
  rw [toString, hport, getPath_normal]
  rfl

end Normal

end Uri

namespace UriParser

open RegularExpression
open Hps.Http.Request.IP (Re oneOf lit opt)

/-! ## What is left of an userinfo -/

/-- Behind a colon an userinfo goes on as one. -/
theorem userinfo_behind {xs ys : List UInt8}
    (h : xs ++ ch ':' :: ys ∈ UriParser.userinfo.matches') : ys ∈ UriParser.userinfo.matches' := by
  obtain ⟨ws, hsplit, hws⟩ := Language.mem_kstar.mp h
  clear h
  have hcolon : ∀ w ∈ (unreserved + pctEncoded + subDelims + lit ':' : Re).matches',
      ch ':' ∈ w → w = [ch ':'] := by
    rintro w (hw | hw) hmem
    · exact absurd hmem fun hmem => over_nameUnit w hw _ hmem (by decide)
    · exact hw
  induction ws generalizing xs with
  | nil => exact absurd hsplit (by simp)
  | cons w ws ih =>
      obtain ⟨hw, hws⟩ := List.forall_mem_cons.mp hws
      rw [List.flatten_cons] at hsplit
      rcases List.append_eq_append_iff.mp hsplit with ⟨mid, hmid, hrest⟩ | ⟨mid, hmid, hrest⟩
      · cases mid with
        | nil => exact @ih [] hrest hws
        | cons c mid =>
            -- the colon is in this unit, which then is nothing else
            obtain ⟨rfl, rfl⟩ := List.cons.inj hrest
            have hw' := hcolon w hw (by simp [hmid])
            have hlen := congrArg List.length (hmid.symm.trans hw')
            simp only [List.length_append, List.length_cons, List.length_nil] at hlen
            obtain rfl : mid = [] := List.eq_nil_of_length_eq_zero (by omega)
            exact Language.mem_kstar.mpr ⟨ws, rfl, hws⟩
      · exact ih hrest.symm hws

theorem savedUserinfo_mem {v : List UInt8} (h : v ∈ UriParser.userinfo.matches') :
    savedUserinfo v ∈ UriParser.userinfo.matches' := by
  rw [savedUserinfo]
  split
  · rename_i hlike
    have hcolon : v.dropWhile (· != ch ':') ≠ [] := by
      intro hnil
      rw [portLike, behindColon, hnil] at hlike
      cases hlike
    rw [← (mem_split hcolon).1] at h
    exact userinfo_behind h
  · exact h

/-! ## What was read, as text -/

/-- The parts of an URI that are not empty. -/
def given (v : List UInt8) : Option (List UInt8) := if v = [] then none else some v

theorem given_getD (v : List UInt8) : (given v).getD [] = v := by
  rw [given]
  split
  · rename_i h
    exact h.symm
  · rfl

theorem mem_given {v w : List UInt8} (h : w ∈ given v) : w = v := by
  rw [given] at h
  split at h
  · cases h
  · exact (Option.some.inj h).symm

namespace Components

variable (c : Components)

theorem port_read_cases : c.read.port = 0 ∨
    ∃ n : Nat, c.read.port = n ∧ 0 < n ∧ n ≤ 65535 := by
  rw [read]
  cases hport : c.port with
  | none => exact .inl rfl
  | some ds =>
      rcases Nat.eq_zero_or_pos (portValue ds) with h0 | hpos
      · exact .inl (by simp [h0])
      · exact .inr ⟨portValue ds, rfl, hpos, (c.port_mem ds hport).2.2⟩

theorem digits_mem_port (n : Nat) : decimal n ∈ UriParser.port.matches' :=
  mem_star_oneOf (Http.decimal_digits n)

theorem slash_mem : Http.text "/" ∈ pathAbempty.matches' :=
  Language.mem_mul.mpr ⟨Http.text "/", .inr (Language.mem_mul.mpr ⟨[ch '/'], rfl, [],
    Language.nil_mem_kstar _, rfl⟩), [], Language.nil_mem_kstar _, rfl⟩

/-- The components of the URI that was read. -/
def printed : Components where
  scheme := c.scheme
  userinfo := given c.read.userinfo
  host := c.host
  port := if c.read.isDefaultPort then none else some (decimal c.read.port.toNat)
  path := c.read.getPath
  query := given c.read.query
  fragment := given c.read.fragment
  scheme_mem := c.scheme_mem
  userinfo_mem := by
    intro v hv
    rw [mem_given hv]
    show (c.userinfo.map savedUserinfo).getD [] ∈ _
    cases huser : c.userinfo with
    | none => exact Language.nil_mem_kstar _
    | some w => exact savedUserinfo_mem (c.userinfo_mem w huser)
  host_ne := c.host_ne
  host_mem := c.host_mem
  port_mem := by
    intro v hv
    split at hv
    · cases hv
    · rename_i hdefault
      obtain rfl := Option.some.inj hv
      rcases c.port_read_cases with h0 | ⟨n, hn, -, hle⟩
      · exact absurd (if_pos h0) hdefault
      · have hvalue : portValue (decimal n) = n := Http.Response.digitsValue_decimal n
        rw [hn, Int.toNat_natCast]
        refine ⟨digits_mem_port n, ?_, by rwa [hvalue]⟩
        rw [Http.decimal_eq]
        exact mt List.map_eq_nil_iff.mp Nat.toDigits_ne_nil
  path_mem := by
    show (if c.path = [] then Http.text "/" else c.path) ∈ _
    split
    · exact slash_mem
    · exact c.path_mem
  query_mem := by
    intro v hv
    rw [mem_given hv]
    show c.query.getD [] ∈ _
    cases hq : c.query with
    | none => exact Language.nil_mem_kstar _
    | some q => exact c.query_mem q hq
  fragment_mem := by
    intro v hv
    rw [mem_given hv]
    show c.fragment.getD [] ∈ _
    cases hf : c.fragment with
    | none => exact Language.nil_mem_kstar _
    | some f => exact c.fragment_mem f hf

theorem userinfoPart_given (v : List UInt8) :
    userinfoPart (given v) = v ++ if v = [] then [] else Http.text "@" := by
  by_cases h : v = []
  · simp [given, userinfoPart, h]
  · rw [given, if_neg h, if_neg h]
    rfl

theorem queryPart_given (v : List UInt8) :
    queryPart (given v) = (if v = [] then [] else Http.text "?") ++ v := by
  by_cases h : v = []
  · simp [given, queryPart, h]
  · rw [given, if_neg h, if_neg h]
    rfl

theorem fragmentPart_given (v : List UInt8) :
    fragmentPart (given v) = (if v = [] then [] else Http.text "#") ++ v := by
  by_cases h : v = []
  · simp [given, fragmentPart, h]
  · rw [given, if_neg h, if_neg h]
    rfl

theorem toStringInt_port :
    Uri.toStringInt c.read.port = decimal c.read.port.toNat := by
  have hpos : ¬c.read.port < 0 := by
    rcases c.port_read_cases with h0 | ⟨n, hn, -, -⟩
    · omega
    · omega
  exact if_neg hpos

theorem portPart_printed : portPart c.printed.port =
    if c.read.isDefaultPort then [] else Http.text ":" ++ Uri.toStringInt c.read.port := by
  rw [toStringInt_port, printed]
  dsimp only
  split
  · rfl
  · rfl

/-- **What was read is written as the text of an URI.** -/
theorem toString_read : c.read.toString = c.printed.text := by
  rw [Uri.toString, text, portPart_printed]
  simp only [printed, userinfoPart_given, queryPart_given, fragmentPart_given, List.append_assoc]
  rfl

/-- The URI that is read of the text. -/
theorem read_printed :
    c.printed.read = { c.read.normal with userinfo := savedUserinfo c.read.userinfo } := by
  have huser : ((given c.read.userinfo).map savedUserinfo).getD [] =
      savedUserinfo c.read.userinfo := by
    by_cases h : c.read.userinfo = []
    · rw [given, if_pos h, h]
      rfl
    · rw [given, if_neg h]
      rfl
  have hport : (c.printed.port.map fun ds => (portValue ds : Int)).getD 0 =
      c.read.normal.port := by
    rw [Uri.normal, printed]
    dsimp only
    cases hdefault : c.read.isDefaultPort with
    | true => rfl
    | false =>
        have hvalue : portValue (decimal c.read.port.toNat) = c.read.port.toNat :=
          Http.Response.digitsValue_decimal _
        have hnat : (c.read.port.toNat : Int) = c.read.port := by
          rcases c.port_read_cases with h0 | ⟨n, hn, -, -⟩
          · omega
          · omega
        rw [if_neg Bool.false_ne_true, if_neg Bool.false_ne_true, Option.map_some,
          Option.getD_some, hvalue, hnat]
  rw [read, hport]
  simp only [printed, huser, given_getD]
  rfl

/-- **An URI that was read and written is read again** as it was, exactly if its
userinfo does not look like a port: every member is the one that it had, and so
is the text that it is written as. -/
theorem create_toString_iff :
    (∃ u, Uri.create c.read.toString = .ok (some u) ∧ u.getScheme = c.read.getScheme ∧
        u.getUserinfo = c.read.getUserinfo ∧ u.getHost = c.read.getHost ∧
        u.getPort = c.read.getPort ∧ u.getPath = c.read.getPath ∧
        u.getQuery = c.read.getQuery ∧ u.getFragment = c.read.getFragment ∧
        u.toString = c.read.toString) ↔
      portLike c.read.userinfo = false := by
  rw [toString_read, create_text, ← savedUserinfo_eq_iff, read_printed, ← toString_read]
  constructor
  · rintro ⟨u, hu, -, huser, -⟩
    obtain rfl := Option.some.inj (Except.ok.inj hu)
    exact huser
  · intro h
    have hsame : { c.read.normal with userinfo := savedUserinfo c.read.userinfo } =
        c.read.normal := by
      rw [h]
      rfl
    rw [hsame]
    exact ⟨_, rfl, rfl, rfl, rfl, Uri.getPort_normal _, Uri.getPath_normal _, rfl, rfl,
      Uri.toString_normal _⟩

end Components

end UriParser

end Hps
