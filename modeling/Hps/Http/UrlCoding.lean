import Hps.Http.Message
import Hps.Lib.Integers

/-!
# HTTP — percent coding

`StringUtil::UrlEncode` and `UrlDecode` of `util.cc`. Both begin a new string
only at the first byte that changes, with a copy of what stands before it.
-/

namespace Hps.Http.StringUtil

open Hps.Lib.Integers (forall_byte)

/-! ## Tables -/

/-- `uri_chars` -/
def uriChars : List UInt8 :=
  [0, 0, 0, 0, 0, 0, 0, 0, 0, 0, 0, 0, 0, 0, 0, 0,
   0, 0, 0, 0, 0, 0, 0, 0, 0, 0, 0, 0, 0, 0, 0, 0,
   0, 0, 0, 0, 0, 0, 0, 0, 0, 0, 0, 0, 0, 1, 1, 0,
   1, 1, 1, 1, 1, 1, 1, 1, 1, 1, 0, 0, 0, 1, 0, 0,
   0, 1, 1, 1, 1, 1, 1, 1, 1, 1, 1, 1, 1, 1, 1, 1,
   1, 1, 1, 1, 1, 1, 1, 1, 1, 1, 1, 0, 0, 0, 0, 1,
   0, 1, 1, 1, 1, 1, 1, 1, 1, 1, 1, 1, 1, 1, 1, 1,
   1, 1, 1, 1, 1, 1, 1, 1, 1, 1, 1, 0, 0, 0, 1, 0] ++
  List.replicate 128 0

/-- `xdigit_chars` -/
def xdigitChars : List UInt8 :=
  List.replicate 48 0 ++
  [0, 1, 2, 3, 4, 5, 6, 7, 8, 9, 0, 0, 0, 0, 0, 0,
   0, 10, 11, 12, 13, 14, 15, 0, 0, 0, 0, 0, 0, 0, 0, 0,
   0, 0, 0, 0, 0, 0, 0, 0, 0, 0, 0, 0, 0, 0, 0, 0,
   0, 10, 11, 12, 13, 14, 15, 0, 0, 0, 0, 0, 0, 0, 0, 0] ++
  List.replicate 144 0

/-- `xdigit_chars[(int)c]`, where `char` is signed: a byte from 128 on is a
negative index, at which the table has nothing. -/
def xdigitCharsAt (c : UInt8) : Option UInt8 :=
  if c < 128 then xdigitChars[c.toNat]? else none

/-- `CHAR_IS_UNRESERVED(c)` -/
def charIsUnreserved (c : UInt8) : Bool := uriChars[c.toNat]?.getD 0 != 0

/-! ## `UrlEncode` -/

def hexdigits : List UInt8 := text "0123456789ABCDEF"

/-- What the loop does with the byte behind `front`. -/
def encodeStep (plus : Bool) (front : List UInt8) (c : UInt8)
    (ss : Option (List UInt8)) : Option (List UInt8) :=
  if !charIsUnreserved c then
    let s := ss.getD front
    if c = ch ' ' ∧ plus then some (s ++ [ch '+'])
    else
      some (s ++ [ch '%', hexdigits[(c >>> 4).toNat]?.getD 0,
        hexdigits[(c &&& 0xf).toNat]?.getD 0])
  else ss.map (· ++ [c])

def encodeLoop (plus : Bool) (front : List UInt8) :
    List UInt8 → Option (List UInt8) → Option (List UInt8)
  | [], ss => ss
  | c :: rest, ss => encodeLoop plus (front ++ [c]) rest (encodeStep plus front c ss)

def urlEncode (str : List UInt8) (plus : Bool) : List UInt8 :=
  (encodeLoop plus [] str none).getD str

/-! ## `UrlDecode` -/

/-- `*c == '%' && (c + 2) < end && isxdigit(*(c + 1)) && isxdigit(*(c + 2))`,
for the text from `c` to the end; `none` where a byte behind the end is read. -/
def isEscape (rest : List UInt8) : Option Bool := do
  if (← rest[0]?) = ch '%' ∧ 2 < rest.length then
    if xdigit (← rest[1]?) then return xdigit (← rest[2]?)
  return false

/-- The loop, with the text before and from `c`; `none` where it reads behind
the end of the text or beside a table, or runs out of `fuel`. -/
def decodeLoop (plus : Bool) : Nat → List UInt8 → List UInt8 →
    Option (List UInt8) → Option (Option (List UInt8))
  | _, _, [], ss => some ss
  | 0, _, _ :: _, _ => none
  | fuel + 1, front, c :: rest, ss => do
      if c = ch '+' ∧ plus then
        decodeLoop plus fuel (front ++ [c]) rest (some (ss.getD front ++ [ch ' ']))
      else if ← isEscape (c :: rest) then
        let hi ← xdigitCharsAt (← (c :: rest)[1]?)
        let lo ← xdigitCharsAt (← (c :: rest)[2]?)
        decodeLoop plus fuel (front ++ (c :: rest).take 3) ((c :: rest).drop 3)
          (some (ss.getD front ++ [hi <<< 4 ||| lo]))
      else decodeLoop plus fuel (front ++ [c]) rest (ss.map (· ++ [c]))

def urlDecode (str : List UInt8) (plus : Bool) : Option (List UInt8) := do
  return (← decodeLoop plus str.length [] str none).getD str

/-! ## What `UrlEncode` computes -/

/-- What is put for a byte. -/
def encodeByte (plus : Bool) (c : UInt8) : List UInt8 :=
  if charIsUnreserved c then [c]
  else if c = ch ' ' ∧ plus then [ch '+']
  else
    [ch '%', hexdigits[(c >>> 4).toNat]?.getD 0, hexdigits[(c &&& 0xf).toNat]?.getD 0]

theorem encodeStep_getD (plus : Bool) (front : List UInt8) (c : UInt8)
    (ss : Option (List UInt8)) :
    (encodeStep plus front c ss).getD (front ++ [c]) = ss.getD front ++ encodeByte plus c := by
  rw [encodeStep, encodeByte]
  cases charIsUnreserved c with
  | true => cases ss <;> simp
  | false =>
      by_cases hs : c = ch ' ' ∧ plus = true
      · simp only [Bool.not_false, if_true, if_pos hs, Option.getD_some, Bool.false_eq_true,
          if_false]
      · simp only [Bool.not_false, if_true, if_neg hs, Option.getD_some, Bool.false_eq_true,
          if_false]

/-- A string that was not begun yet stands for what is before the byte. -/
theorem encodeLoop_getD (plus : Bool) (front rest : List UInt8)
    (ss : Option (List UInt8)) :
    (encodeLoop plus front rest ss).getD (front ++ rest) =
      ss.getD front ++ rest.flatMap (encodeByte plus) := by
  induction rest generalizing front ss with
  | nil => simp [encodeLoop]
  | cons c rest ih =>
      have h := ih (front ++ [c]) (encodeStep plus front c ss)
      rw [encodeStep_getD] at h
      simpa [encodeLoop] using h

theorem urlEncode_eq (str : List UInt8) (plus : Bool) :
    urlEncode str plus = str.flatMap (encodeByte plus) :=
  encodeLoop_getD plus [] str none

/-! ## What `UrlDecode` computes -/

/-- The value of a hexadecimal digit. -/
def nibble (c : UInt8) : UInt8 := (xdigitCharsAt c).getD 0

/-- The byte for which an escape at the beginning of a text stands. -/
def escapedByte : List UInt8 → Option UInt8
  | c :: a :: b :: _ =>
      if c = ch '%' ∧ xdigit a ∧ xdigit b then some (nibble a <<< 4 ||| nibble b) else none
  | _ => none

/-- What a text stands for, from left to right. -/
def decode (plus : Bool) : List UInt8 → List UInt8
  | [] => []
  | c :: rest =>
      if c = ch '+' ∧ plus then ch ' ' :: decode plus rest
      else
        match escapedByte (c :: rest) with
        | some v => v :: decode plus (rest.drop 2)
        | none => c :: decode plus rest
  termination_by t => t.length

theorem xdigitCharsAt_of_xdigit {c : UInt8} :
    xdigit c = true → xdigitCharsAt c = some (nibble c) :=
  forall_byte (P := fun c => xdigit c = true → xdigitCharsAt c = some (nibble c))
    (by decide +kernel) c

/-- The test reads nothing behind the end. -/
theorem isEscape_eq (c : UInt8) (rest : List UInt8) :
    isEscape (c :: rest) = some (escapedByte (c :: rest)).isSome := by
  match rest with
  | [] => simp [isEscape, escapedByte]
  | [a] => simp [isEscape, escapedByte]
  | a :: b :: rest =>
      by_cases hc : c = ch '%'
      · by_cases ha : xdigit a
        · by_cases hb : xdigit b <;> simp [isEscape, escapedByte, hc, ha, hb]
        · simp [isEscape, escapedByte, hc, ha]
      · simp [isEscape, escapedByte, hc]

/-- An escape is three bytes, and its digits stand in the table. -/
theorem escapedByte_eq_some {t : List UInt8} {v : UInt8} (h : escapedByte t = some v) :
    ∃ a b rest, t = ch '%' :: a :: b :: rest ∧ xdigitCharsAt a = some (nibble a) ∧
      xdigitCharsAt b = some (nibble b) ∧ v = nibble a <<< 4 ||| nibble b := by
  match t with
  | [] | [_] | [_, _] => cases h
  | c :: a :: b :: rest =>
      rw [escapedByte] at h
      split at h
      · rename_i hesc
        obtain ⟨rfl, ha, hb⟩ := hesc
        exact ⟨a, b, rest, rfl, xdigitCharsAt_of_xdigit ha, xdigitCharsAt_of_xdigit hb,
          (Option.some.inj h).symm⟩
      · cases h

/-- With one unit of fuel for each byte, the loop comes to the end. -/
theorem decodeLoop_eq (plus : Bool) {fuel : Nat} {rest : List UInt8}
    (hfuel : rest.length ≤ fuel) (front : List UInt8) (ss : Option (List UInt8)) :
    ∃ r, decodeLoop plus fuel front rest ss = some r ∧
      r.getD (front ++ rest) = ss.getD front ++ decode plus rest := by
  induction fuel generalizing rest front ss with
  | zero =>
      obtain rfl := List.length_eq_zero_iff.mp (Nat.le_zero.mp hfuel)
      exact ⟨ss, by rw [decodeLoop], by simp [decode]⟩
  | succ fuel ih =>
      cases rest with
      | nil => exact ⟨ss, by rw [decodeLoop], by simp [decode]⟩
      | cons c rest =>
          have hrest : rest.length ≤ fuel := Nat.le_of_succ_le_succ hfuel
          rw [decodeLoop, decode]
          by_cases hplus : c = ch '+' ∧ plus
          · obtain ⟨r, hr, hget⟩ := ih hrest (front ++ [c]) (some (ss.getD front ++ [ch ' ']))
            rw [if_pos hplus, if_pos hplus]
            exact ⟨r, hr, by simpa using hget⟩
          · rw [if_neg hplus, if_neg hplus, isEscape_eq]
            cases hesc : escapedByte (c :: rest) with
            | none =>
                obtain ⟨r, hr, hget⟩ := ih hrest (front ++ [c]) (ss.map (· ++ [c]))
                refine ⟨r, by simpa using hr, ?_⟩
                cases ss <;> simpa using hget
            | some v =>
                obtain ⟨a, b, rest', heq, ha, hb, rfl⟩ := escapedByte_eq_some hesc
                obtain ⟨rfl, rfl⟩ := List.cons.inj heq
                have hrest' : rest'.length ≤ fuel := by
                  simp only [List.length_cons] at hrest
                  omega
                obtain ⟨r, hr, hget⟩ := ih hrest' (front ++ [ch '%', a, b])
                  (some (ss.getD front ++ [nibble a <<< 4 ||| nibble b]))
                refine ⟨r, by simpa [ha, hb] using hr, by simpa using hget⟩

/-- `UrlDecode` returns what the text stands for. -/
theorem urlDecode_eq (str : List UInt8) (plus : Bool) :
    urlDecode str plus = some (decode plus str) := by
  obtain ⟨r, hr, hget⟩ := decodeLoop_eq plus (Nat.le_refl str.length) [] none
  rw [urlDecode, hr]
  exact congrArg some hget

/-! ## Round trip -/

theorem charIsUnreserved_plain {c : UInt8} (h : charIsUnreserved c = true) :
    c ≠ ch '+' ∧ c ≠ ch '%' := by
  constructor
  · rintro rfl
    exact absurd h (by decide)
  · rintro rfl
    exact absurd h (by decide)

/-- An upper-case hexadecimal digit. -/
def upperHex (c : UInt8) : Bool := digit c || (ch 'A' ≤ c && c ≤ ch 'F')

theorem xdigit_of_upperHex {c : UInt8} (h : upperHex c = true) : xdigit c = true := by
  rw [upperHex] at h
  rw [xdigit, h, Bool.true_or]

/-- The digits in the order of their values. -/
theorem hexdigits_get : ∀ n < 16, upperHex (hexdigits[n]?.getD 0) = true ∧
    nibble (hexdigits[n]?.getD 0) = UInt8.ofNat n := by
  decide +kernel

/-- The two digits of a byte are upper-case ones, and stand for it. -/
theorem hexdigits_byte (c : UInt8) :
    upperHex (hexdigits[(c >>> 4).toNat]?.getD 0) = true ∧
      upperHex (hexdigits[(c &&& 0xf).toNat]?.getD 0) = true ∧
      nibble (hexdigits[(c >>> 4).toNat]?.getD 0) <<< 4 |||
        nibble (hexdigits[(c &&& 0xf).toNat]?.getD 0) = c := by
  have hhalves : (c >>> 4).toNat < 16 ∧ (c &&& 0xf).toNat < 16 ∧
      (c >>> 4) <<< 4 ||| (c &&& 0xf) = c :=
    forall_byte (P := fun c => (c >>> 4).toNat < 16 ∧ (c &&& 0xf).toNat < 16 ∧
      (c >>> 4) <<< 4 ||| (c &&& 0xf) = c) (by decide +kernel) c
  obtain ⟨hhi, hlo, hjoin⟩ := hhalves
  obtain ⟨hupperHi, hvalueHi⟩ := hexdigits_get _ hhi
  obtain ⟨hupperLo, hvalueLo⟩ := hexdigits_get _ hlo
  refine ⟨hupperHi, hupperLo, ?_⟩
  rw [hvalueHi, hvalueLo, UInt8.ofNat_toNat, UInt8.ofNat_toNat, hjoin]

theorem decode_encodeByte {plus plus' : Bool} (hplus : plus = true → plus' = true)
    (c : UInt8) (rest : List UInt8) :
    decode plus' (encodeByte plus c ++ rest) = c :: decode plus' rest := by
  by_cases hc : charIsUnreserved c = true
  · obtain ⟨hp, he⟩ := charIsUnreserved_plain hc
    have hesc : escapedByte (c :: rest) = none := by
      match rest with
      | [] | [_] => rfl
      | _ :: _ :: _ => exact if_neg fun h => he h.1
    rw [encodeByte, if_pos hc, List.singleton_append, decode, if_neg fun h => hp h.1, hesc]
  · by_cases hs : c = ch ' ' ∧ plus
    · rw [encodeByte, if_neg hc, if_pos hs, List.singleton_append, decode,
        if_pos ⟨rfl, hplus hs.2⟩, hs.1]
    · obtain ⟨hhi, hlo, hval⟩ := hexdigits_byte c
      rw [encodeByte, if_neg hc, if_neg hs]
      simp only [List.cons_append, List.nil_append]
      rw [decode, if_neg fun h => absurd h.1 (by decide), escapedByte,
        if_pos ⟨rfl, xdigit_of_upperHex hhi, xdigit_of_upperHex hlo⟩, hval]
      rfl

/-- What was encoded is recovered, whether or not blanks were made to `+`, if
the decoder takes a `+` for a blank then. -/
theorem decode_urlEncode {plus plus' : Bool} (hplus : plus = true → plus' = true)
    (str : List UInt8) : decode plus' (urlEncode str plus) = str := by
  rw [urlEncode_eq]
  induction str with
  | nil => simp [decode]
  | cons c str ih => rw [List.flatMap_cons, decode_encodeByte hplus, ih]

/-- Texts of marked bytes, escapes with upper-case digits and, for blanks, `+`. -/
inductive Encoded (plus : Bool) : List UInt8 → Prop where
  | nil : Encoded plus []
  | unreserved {c t} : charIsUnreserved c = true → Encoded plus t → Encoded plus (c :: t)
  | blank {t} : plus = true → Encoded plus t → Encoded plus (ch '+' :: t)
  | escape {a b t} : upperHex a = true → upperHex b = true → Encoded plus t →
      Encoded plus (ch '%' :: a :: b :: t)

theorem encoded_urlEncode (str : List UInt8) (plus : Bool) :
    Encoded plus (urlEncode str plus) := by
  rw [urlEncode_eq]
  induction str with
  | nil => exact .nil
  | cons c str ih =>
      rw [List.flatMap_cons, encodeByte]
      split
      · exact .unreserved ‹_› ih
      · split
        · rename_i hs
          exact .blank hs.2 ih
        · obtain ⟨hhi, hlo, -⟩ := hexdigits_byte c
          exact .escape hhi hlo ih

/-- The two functions are inverse to each other in this order, the encoder
writes nothing else than it should, and the decoder returns for every text. -/
theorem percentCoding (s : List UInt8) :
    (∀ b, urlDecode (urlEncode s b) b = some s) ∧
      urlDecode (urlEncode s false) true = some s ∧
      (∀ b, Encoded b (urlEncode s b)) ∧
      ∀ b, (urlDecode s b).isSome = true := by
  refine ⟨fun b => ?_, ?_, encoded_urlEncode s, fun b => ?_⟩
  · rw [urlDecode_eq, decode_urlEncode id]
  · rw [urlDecode_eq, decode_urlEncode fun _ => rfl]
  · rw [urlDecode_eq, Option.isSome_some]

end Hps.Http.StringUtil
