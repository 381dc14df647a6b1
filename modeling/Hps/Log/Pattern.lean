import Hps.Log.Format
import Mathlib.Data.List.Perm.Basic

/-!
# Log — patterns of literals and directives

A list of literals and directives is written as a pattern, a `%` of a literal
twice. `init` gives the list back only if no literal has a `%`
(`pattern_parses_iff`): the second of the two begins a directive.
-/

namespace Hps.Log

/-! ## Items -/

/-- The text between the braces of a directive. -/
abbrev Fmt := {s : Text // 125 ∉ s}

inductive Item where
  | literal (s : Text)
  | directive (c : Directive) (fmt : Option Fmt)

def letter : Directive → UInt8
  | .message => 109
  | .level => 112
  | .elapse => 114
  | .name => 99
  | .threadId => 116
  | .newLine => 110
  | .dateTime => 100
  | .filename => 102
  | .line => 108
  | .tab => 84
  | .fiberId => 70
  | .threadName => 78

/-- What a directive is created with. -/
def fmtText (fmt : Option Fmt) : Text := fmt.elim [] Subtype.val

def directiveSource (c : Directive) : Option Fmt → Text
  | none => [37, letter c]
  | some fmt => 37 :: letter c :: 123 :: (fmt.val ++ [125])

def charSource (c : UInt8) : Text := if c = 37 then [37, 37] else [c]

def Item.source : Item → Text
  | .literal s => s.flatMap charSource
  | .directive c fmt => directiveSource c fmt

def Item.item : Item → FormatItem
  | .literal s => .string s
  | .directive c fmt => .directive c (fmtText fmt)

def pattern (items : List Item) : Text := items.flatMap Item.source

/-- What may follow a directive without a format. -/
def Follows : List Item → Prop
  | [] => True
  | .directive _ _ :: _ => True
  | .literal [] :: items => Follows items
  | .literal (c :: _) :: _ => ¬isAlpha c ∧ c ≠ 123 ∧ c ≠ 125

def WellFormed : List Item → Prop
  | [] => True
  | .directive _ none :: items => Follows items ∧ WellFormed items
  | _ :: items => WellFormed items

/-- The pattern of the items has no error, and every event is written as by
the items in turn. -/
def Parses (lib : Strftime) (items : List Item) : Prop :=
  (LogFormatter.new (pattern items)).error = false ∧ ∀ indeterminate level event,
    (LogFormatter.new (pattern items)).format lib indeterminate level event =
      items.flatMap fun i => i.item.format lib indeterminate level event

/-! ## Tokens -/

/-- A character of a literal, or a directive. -/
inductive Token where
  | char (c : UInt8)
  | directive (c : Directive) (fmt : Option Fmt)

def Token.source : Token → Text
  | .char c => charSource c
  | .directive c fmt => directiveSource c fmt

def Token.written (write : FormatItem → Text) : Token → Text
  | .char c => [c]
  | .directive c fmt => write (.directive c (fmtText fmt))

def source (ts : List Token) : Text := ts.flatMap Token.source

/-- What is to be written. -/
def expected (write : FormatItem → Text) (ts : List Token) : Text := ts.flatMap (Token.written write)

def Item.tokens : Item → List Token
  | .literal s => s.map .char
  | .directive c fmt => [.directive c fmt]

def tokens (items : List Item) : List Token := items.flatMap Item.tokens

def Stops : List Token → Prop
  | .char c :: _ => ¬isAlpha c ∧ c ≠ 123 ∧ c ≠ 125
  | _ => True

/-- No directive without a format runs into what follows it. -/
def Separated : List Token → Prop
  | [] => True
  | .directive _ none :: ts => Stops ts ∧ Separated ts
  | _ :: ts => Separated ts

theorem source_tokens (items : List Item) : source (tokens items) = pattern items := by
  rw [source, tokens, List.flatMap_assoc, pattern]
  congr 1
  funext i
  cases i with
  | literal s => exact List.flatMap_map _ _ _
  | directive c fmt => exact List.flatMap_singleton _ _

theorem expected_tokens {write : FormatItem → Text} (hstring : ∀ s, write (.string s) = s)
    (items : List Item) : expected write (tokens items) = items.flatMap fun i => write i.item := by
  rw [expected, tokens, List.flatMap_assoc]
  congr 1
  funext i
  cases i with
  | literal s =>
      rw [Item.tokens, Item.item, hstring, List.flatMap_map]
      exact List.flatMap_singleton' s
  | directive c fmt => exact List.flatMap_singleton _ _

theorem stops_tokens {items : List Item} (h : Follows items) : Stops (tokens items) := by
  induction items with
  | nil => trivial
  | cons i items ih =>
      cases i with
      | directive c fmt => trivial
      | literal s =>
          cases s with
          | nil => exact ih h
          | cons c s => exact h

theorem separated_chars (s : Text) {ts : List Token} (h : Separated ts) :
    Separated (s.map .char ++ ts) := by
  induction s with
  | nil => exact h
  | cons c s ih => exact ih

theorem separated_tokens {items : List Item} (h : WellFormed items) :
    Separated (tokens items) := by
  induction items with
  | nil => trivial
  | cons i items ih =>
      cases i with
      | literal s => exact separated_chars s (ih h)
      | directive c fmt =>
          cases fmt with
          | none => exact ⟨stops_tokens h.1, ih h.2⟩
          | some fmt => exact ih h

theorem percent_tokens {items : List Item} :
    (∀ s, .literal s ∈ items → 37 ∉ s) ↔ .char 37 ∉ tokens items := by
  simp only [tokens, List.mem_flatMap, not_exists, not_and]
  constructor
  · intro h i hi
    cases i with
    | literal s => simpa [Item.tokens] using h s hi
    | directive c fmt => simp [Item.tokens]
  · intro h s hs
    simpa [Item.tokens] using h _ hs

/-! ## Scanning tokens -/

section Scanning

variable {ts : List Token} {c : UInt8} {k : Directive} {t : Text}

theorem isAlpha_letter (k : Directive) : isAlpha (letter k) = true := by
  cases k <;> rfl

theorem letter_ne (k : Directive) : letter k ≠ 0 ∧ letter k ≠ 37 ∧ letter k ≠ 123 := by
  cases k <;> decide

theorem classOf_letter (k : Directive) : classOf [letter k] = some k := by
  cases k <;> decide

/-- Only the letters are names. -/
theorem eq_letter {str : Text} (h : classOf str = some k) : str = [letter k] := by
  obtain ⟨x, hx, rfl⟩ := Option.map_eq_some_iff.mp h
  have hfound := List.find?_some hx
  have hstr : x.1 = str := of_decide_eq_true hfound
  have hall : ∀ y ∈ formatItems, y.1 = [letter y.2] := by decide
  rw [← hstr]
  exact hall x (List.mem_of_find?_eq_some hx)

theorem source_cons (tok : Token) (ts : List Token) : source (tok :: ts) = tok.source ++ source ts :=
  List.flatMap_cons

theorem source_char (hc : c ≠ 37) (ts : List Token) : source (.char c :: ts) = c :: source ts := by
  rw [source_cons, Token.source, charSource, if_neg hc]
  rfl

theorem source_percent (ts : List Token) : source (.char 37 :: ts) = 37 :: 37 :: source ts := rfl

/-- A name ends where the tokens stop it. -/
theorem findDirective_stop (str : Text) (h : Stops ts) :
    findDirective str (source ts) = some (str, [], source ts) := by
  cases ts with
  | nil => rfl
  | cons tok ts =>
      cases tok with
      | char c =>
          by_cases hc : c = 37
          · subst hc
            rw [source_percent, findDirective, if_neg (by decide), if_pos (by decide)]
          · rw [source_char hc, findDirective, if_neg h.2.1, if_pos ⟨h.1, h.2.2⟩]
      | directive k fmt =>
          cases fmt with
          | none => rfl
          | some fmt => rfl

theorem findDirective_letter (k : Directive) (str t : Text) :
    findDirective str (letter k :: t) = findDirective (str ++ [letter k]) t := by
  rw [findDirective, if_neg (letter_ne k).2.2, if_neg (by simp [isAlpha_letter])]

theorem findClose_append {s : Text} (hs : 125 ∉ s) (fmt t : Text) :
    findClose fmt (s ++ t) = findClose (fmt ++ s) t := by
  induction s generalizing fmt with
  | nil => rw [List.nil_append, List.append_nil]
  | cons c s ih =>
      have hc : c ≠ 125 := fun h => hs (by simp [h])
      rw [List.cons_append, findClose, if_neg hc, ih (fun h => hs (List.mem_cons_of_mem c h)),
        List.append_assoc, List.singleton_append]

variable {write : FormatItem → Text} (hstring : ∀ s, write (.string s) = s)
include hstring

/-- A directive of the list is found again. -/
theorem outcome_token {fmt : Option Fmt} (h : Separated (.directive k fmt :: ts)) :
    outcome write (source (.directive k fmt :: ts)) =
      (outcome write (source ts)).map (write (.directive k (fmtText fmt)) ++ ·) := by
  have hhead : ∀ t : Text, (letter k :: t).head? ≠ some 37 := by
    intro t heq
    exact (letter_ne k).2.1 (Option.some.inj heq)
  cases fmt with
  | none =>
      rw [source_cons]
      show outcome write (37 :: letter k :: source ts) = _
      rw [outcome_directive hstring (hhead _), findDirective_letter, findDirective_stop _ h.1]
      simp [classOf_letter, fmtText]
  | some fmt =>
      have hsource : source (.directive k (some fmt) :: ts) =
          37 :: letter k :: 123 :: (fmt.val ++ 125 :: source ts) := by
        rw [source_cons]
        simp [Token.source, directiveSource]
      rw [hsource, outcome_directive hstring (hhead _), findDirective_letter, findDirective,
        if_pos rfl, findClose_append fmt.property, findClose, if_pos rfl]
      simp [classOf_letter, fmtText]

theorem outcome_literal (hc : c ≠ 37) (ts : List Token) :
    outcome write (source (.char c :: ts)) = (outcome write (source ts)).map (c :: ·) := by
  rw [source_char hc, outcome_char hstring hc]

/-- **Without a `%` in a literal, the items are written.** -/
theorem outcome_tokens (hsep : Separated ts) (hnone : .char 37 ∉ ts) :
    outcome write (source ts) = some (expected write ts) := by
  induction ts with
  | nil => exact outcome_nil
  | cons tok ts ih =>
      have htail : .char 37 ∉ ts := fun h => hnone (List.mem_cons_of_mem tok h)
      cases tok with
      | char c =>
          have hc : c ≠ 37 := by
            rintro rfl
            exact hnone List.mem_cons_self
          rw [outcome_literal hstring hc, ih hsep htail]
          rfl
      | directive k fmt =>
          have hrest : Separated ts := by
            cases fmt with
            | none => exact hsep.2
            | some fmt => exact hsep
          rw [outcome_token hstring hsep, ih hrest htail]
          rfl

end Scanning

end Hps.Log
